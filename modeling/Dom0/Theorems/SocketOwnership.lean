import Dom0.Lib.Runs
import Dom0.Net.TcpClientSocket

/-! The descriptors of the client sockets. A socket does not know whether it holds a descriptor: each `disconnect`
closes what `targetSocket` has, and each `connect` overwrites it. Every descriptor is closed once, and nothing else is,
where the methods are called so that each socket connects once and is closed by its destructor alone. -/

namespace Dom0
open Process

/-! ## What the sockets owe -/

/-- Every `close` hits a descriptor that the socket made and that is still open, no descriptor is closed twice, and
    those of an object that is gone were closed. -/
structure Balanced (s : Process) : Prop where
  closes_own : ∀ m r, (m, r) ∈ s.closes → ∃ k, r = some k ∧ (m, k) ∈ s.made
  at_most_once : ∀ m k, s.closes.count (m, some k) ≤ 1
  closed_at_end : ∀ id m k o, ((id, m), k) ∈ s.made → s.objects id = some o → o.destroyed → o.calls = [] →
    ((id, m), some k) ∈ s.closes

/-- Calls that keep to that: `connect` where no socket of the object made a descriptor before, the destructor where each
    socket with a port has made one, and `disconnect` on an object whose binary port is 0, where it does nothing. -/
def CallsOnce (s : Process) : ProcessAction → Prop
  | .connect id _ => ∀ o, s.objects id = some o → ∀ m, (o.get m).isDisabled = false → ∀ k, ((id, m), k) ∉ s.made
  | .disconnect id => ∀ o, s.objects id = some o → o.binary.isDisabled
  | .destroy id => ∀ o, s.objects id = some o → ∀ m, (o.get m).isDisabled = false → ∃ k, ((id, m), k) ∈ s.made
  | .create _ _ _ _ _ | .call _ _ _ | .otherOpen _ | .otherClose _ => True

/-! ## One socket -/

/-- What a socket made, and what it closed. -/
def Process.madeBy (s : Process) (m : SocketId) : List (SocketId × Nat) := s.made.filter (·.1 = m)

def Process.closedBy (s : Process) (m : SocketId) : List (SocketId × Option Nat) := s.closes.filter (·.1 = m)

/-- Where a socket stands, with `nc` and `nd` calls of its `connect` and `disconnect` still to come in the method in
    progress. -/
inductive Standing (s : Process) (m : SocketId) (t : TcpClientSocket) : (nc nd : Nat) → (destroyed : Bool) → Prop
  | disabled {nc nd : Nat} {destroyed : Bool} (ht : t.isDisabled = true) (hmade : s.madeBy m = [])
      (hcloses : s.closedBy m = []) : Standing s m t nc nd destroyed
  | unused {nc : Nat} (ht : t.isDisabled = false) (hmade : s.madeBy m = []) (hcloses : s.closedBy m = [])
      (hnc : nc ≤ 1) :
      Standing s m t nc 0 false
  | open {nd : Nat} {destroyed : Bool} (k : Nat) (ht : t.isDisabled = false) (hmade : s.madeBy m = [(m, k)])
      (hcloses : s.closedBy m = []) (htable : s.table t.targetSocket = some k)
      (hnd : nd = if destroyed then 1 else 0) : Standing s m t 0 nd destroyed
  | closed (k : Nat) (ht : t.isDisabled = false) (hmade : s.madeBy m = [(m, k)])
      (hcloses : s.closedBy m = [(m, some k)]) : Standing s m t 0 0 true

section
variable {s s' : Process} {m m' : SocketId} {t : TcpClientSocket} {nc nd k : Nat} {destroyed : Bool} {r : Option Nat}

theorem mem_madeBy : (m, k) ∈ s.madeBy m ↔ (m, k) ∈ s.made := by simp [Process.madeBy]

theorem mem_closedBy : (m, r) ∈ s.closedBy m ↔ (m, r) ∈ s.closes := by simp [Process.closedBy]

theorem count_closedBy : s.closes.count (m, r) = (s.closedBy m).count (m, r) := by
  rw [Process.closedBy, List.count_filter]
  simp

/-- What happens elsewhere leaves a socket as it stands. -/
theorem Standing.frame (h : Standing s m t nc nd destroyed) (hmade : s'.madeBy m = s.madeBy m)
    (hcloses : s'.closedBy m = s.closedBy m)
    (htable : ∀ k, (m, k) ∈ s.made → s.table t.targetSocket = some k → s'.table t.targetSocket = some k) :
    Standing s' m t nc nd destroyed := by
  cases h with
  | disabled ht h₁ h₂ => exact .disabled ht (hmade.trans h₁) (hcloses.trans h₂)
  | unused ht h₁ h₂ hnc => exact .unused ht (hmade.trans h₁) (hcloses.trans h₂) hnc
  | «open» k ht h₁ h₂ h₃ hnd =>
    have hmem : (m, k) ∈ s.made := mem_madeBy.mp (h₁ ▸ List.mem_singleton_self _)
    exact .open k ht (hmade.trans h₁) (hcloses.trans h₂) (htable k hmem h₃) hnd
  | closed k ht h₁ h₂ => exact .closed k ht (hmade.trans h₁) (hcloses.trans h₂)

theorem Standing.closes (h : Standing s m t nc nd destroyed) :
    s.closedBy m = [] ∨ ∃ k, s.madeBy m = [(m, k)] ∧ s.closedBy m = [(m, some k)] := by
  cases h with
  | disabled _ _ hcloses | unused _ _ hcloses _ | «open» _ _ _ hcloses _ _ => exact Or.inl hcloses
  | closed k _ hmade hcloses => exact Or.inr ⟨k, hmade, hcloses⟩

theorem Standing.connects (h : Standing s m t 0 0 false) (hfree : t.isDisabled = false → ∀ k, (m, k) ∉ s.made) :
    Standing s m t 1 0 false := by
  cases h with
  | disabled ht hmade hcloses => exact .disabled ht hmade hcloses
  | unused ht hmade hcloses _ => exact .unused ht hmade hcloses (Nat.le_refl 1)
  | «open» k ht hmade _ _ _ => exact absurd (mem_madeBy.mp (hmade ▸ List.mem_singleton_self _)) (hfree ht k)

/-- The destructor begins on a socket that has one. -/
theorem Standing.destroys (h : Standing s m t 0 0 false) (hmade : t.isDisabled = false → ∃ k, (m, k) ∈ s.made) :
    Standing s m t 0 1 true := by
  cases h with
  | disabled ht hnone hcloses => exact .disabled ht hnone hcloses
  | unused ht hnone _ _ =>
    obtain ⟨k, hmem⟩ := hmade ht
    have hk := mem_madeBy.mpr hmem
    rw [hnone] at hk
    exact absurd hk List.not_mem_nil
  | «open» k ht hone hcloses htable _ => exact .open k ht hone hcloses htable rfl

theorem Standing.nothing (h : Standing s m t nc nd destroyed) (ht : t.isDisabled = true) :
    s.madeBy m = [] ∧ s.closedBy m = [] := by
  cases h with
  | disabled _ hmade hcloses => exact ⟨hmade, hcloses⟩
  | unused ht' _ _ _ | «open» _ ht' _ _ _ _ | closed _ ht' _ _ => exact absurd (ht'.symm.trans ht) Bool.false_ne_true

theorem Standing.connecting (h : Standing s m t (nc + 1) nd destroyed) (ht : t.isDisabled = false) :
    s.madeBy m = [] ∧ s.closedBy m = [] ∧ nc = 0 ∧ nd = 0 ∧ destroyed = false := by
  generalize hn : nc + 1 = n at h
  cases h with
  | disabled ht' => exact absurd (ht.symm.trans ht') Bool.false_ne_true
  | unused _ hmade hcloses hnc => exact ⟨hmade, hcloses, by omega, rfl, rfl⟩
  | «open» | closed => omega

/-- Where a `disconnect` is still to come, it is that of the destructor, and the socket has its descriptor. -/
theorem Standing.disconnecting (h : Standing s m t nc (nd + 1) destroyed) (ht : t.isDisabled = false) :
    ∃ k, s.madeBy m = [(m, k)] ∧ s.closedBy m = [] ∧ s.table t.targetSocket = some k ∧ nc = 0 ∧ nd = 0 ∧
      destroyed = true := by
  generalize hn : nd + 1 = n at h
  cases h with
  | disabled ht' => exact absurd (ht.symm.trans ht') Bool.false_ne_true
  | «open» k _ hmade hcloses htable hnd =>
    cases destroyed with
    | true => exact ⟨k, hmade, hcloses, htable, rfl, by simpa [← hn] using hnd, rfl⟩
    | false => simp [← hn] at hnd
  | unused | closed => omega

end

/-! ## The process -/

/-- The invariant: numbers are used once, and every socket stands well. -/
structure Wellkept (s : Process) : Prop where
  table_lt : ∀ fd k, s.table fd = some k → k < s.next
  made_lt : ∀ m k, (m, k) ∈ s.made → k < s.next
  maker : ∀ m m' k, (m, k) ∈ s.made → (m', k) ∈ s.made → m = m'
  absent : ∀ id, s.objects id = none → ∀ m, s.madeBy (id, m) = [] ∧ s.closedBy (id, m) = []
  standing : ∀ id o, s.objects id = some o → ∀ m,
    Standing s (id, m) (o.get m) (o.calls.count (.connect m)) (o.calls.count (.disconnect m)) o.destroyed

namespace Wellkept
variable {s s₁ : Process} {id : Nat} {o o₁ : RemoteSockets} {m : Member} {calls : List SocketCall} {destroyed : Bool}
  {fd : CInt} {res : Except NetErrno Unit} {rest : List SocketCall}

theorem start (table : CInt → Option Nat) {next : Nat} (h : ∀ fd k, table fd = some k → k < next) :
    Wellkept (Process.start table next) :=
  ⟨h, fun _ _ hmem => absurd hmem List.not_mem_nil, fun _ _ _ hmem => absurd hmem List.not_mem_nil,
    fun _ _ _ => ⟨rfl, rfl⟩, fun _ _ hid => by cases hid⟩

theorem closes (h : Wellkept s) (m : SocketId) :
    s.closedBy m = [] ∨ ∃ k, s.madeBy m = [(m, k)] ∧ s.closedBy m = [(m, some k)] := by
  cases hid : s.objects m.1 with
  | none => exact Or.inl (h.absent m.1 hid m.2).2
  | some o => exact (h.standing m.1 o hid m.2).closes

theorem balanced (h : Wellkept s) : Balanced s where
  closes_own := by
    intro m r hmem
    have hclosed := mem_closedBy.mpr hmem
    rcases h.closes m with hnone | ⟨k, hmade, hone⟩
    · rw [hnone] at hclosed
      exact absurd hclosed List.not_mem_nil
    · rw [hone, List.mem_singleton] at hclosed
      exact ⟨k, congrArg Prod.snd hclosed, mem_madeBy.mp (hmade ▸ List.mem_singleton_self _)⟩
  at_most_once := by
    intro m k
    rw [count_closedBy]
    rcases h.closes m with hnone | ⟨k', -, hone⟩
    · rw [hnone]
      exact Nat.zero_le _
    · rw [hone]
      exact List.count_le_length
  closed_at_end := by
    intro id m k o hmem hid hdestroyed hcalls
    have hmade := mem_madeBy.mpr hmem
    have hstands := h.standing id o hid m
    rw [hcalls, hdestroyed] at hstands
    generalize hnd : List.count (SocketCall.disconnect m) [] = nd at hstands
    cases hstands with
    | disabled _ hnone _ =>
      rw [hnone] at hmade
      exact absurd hmade List.not_mem_nil
    | «open» _ _ _ _ _ hone => simp [← hnd] at hone
    | closed k' _ hone hcloses =>
      rw [hone, List.mem_singleton] at hmade
      cases hmade
      exact mem_closedBy.mp (hcloses ▸ List.mem_singleton_self _)

theorem setObject (h : Wellkept s)
    (ho : ∀ m, Standing s (id, m) (o.get m) (o.calls.count (.connect m)) (o.calls.count (.disconnect m)) o.destroyed) :
    Wellkept (s.setObject id o) where
  table_lt := h.table_lt
  made_lt := h.made_lt
  maker := h.maker
  absent id' hnone := by
    by_cases heq : id' = id
    · subst heq
      simp [Process.setObject] at hnone
    · exact h.absent id' (by simpa [Process.setObject, heq] using hnone)
  standing id' o' hsome m := by
    by_cases heq : id' = id
    · subst heq
      obtain rfl : o = o' := by simpa [Process.setObject] using hsome
      exact (ho m).frame rfl rfl fun _ _ htable => htable
    · exact (h.standing id' o' (by simpa [Process.setObject, heq] using hsome) m).frame rfl rfl fun _ _ htable => htable

theorem frame (h : Wellkept s) (hobjects : s₁.objects = s.objects) (hmade : s₁.made = s.made)
    (hcloses : s₁.closes = s.closes)
    (hnext : s.next ≤ s₁.next) (hlt : ∀ fd k, s₁.table fd = some k → k < s₁.next)
    (htable : ∀ m fd k, (m, k) ∈ s.made → s.table fd = some k → s₁.table fd = some k) : Wellkept s₁ where
  table_lt := hlt
  made_lt m k hmem := Nat.lt_of_lt_of_le (h.made_lt m k (hmade ▸ hmem)) hnext
  maker m m' k hmem hmem' := h.maker m m' k (hmade ▸ hmem) (hmade ▸ hmem')
  absent id hnone m := by
    have hab := h.absent id (hobjects ▸ hnone) m
    simpa only [Process.madeBy, Process.closedBy, hmade, hcloses] using hab
  standing id o hsome m :=
    (h.standing id o (hobjects ▸ hsome) m).frame (by simp only [Process.madeBy, hmade])
      (by simp only [Process.closedBy, hcloses]) fun k hmem => htable (id, m) _ k hmem

theorem acted (m : Member) (h : Wellkept s) (hid : s.objects id = some o) (hobjects : s₁.objects = s.objects)
    (hlt : ∀ fd k, s₁.table fd = some k → k < s₁.next) (hmade_lt : ∀ m k, (m, k) ∈ s₁.made → k < s₁.next)
    (hmaker : ∀ m m' k, (m, k) ∈ s₁.made → (m', k) ∈ s₁.made → m = m')
    (hother : ∀ n, n ≠ (id, m) → s₁.madeBy n = s.madeBy n ∧ s₁.closedBy n = s.closedBy n ∧
      ∀ fd k, (n, k) ∈ s.made → s.table fd = some k → s₁.table fd = some k)
    (hsame : ∀ n, n ≠ m → o₁.get n = o.get n ∧ o₁.calls.count (.connect n) = o.calls.count (.connect n) ∧
      o₁.calls.count (.disconnect n) = o.calls.count (.disconnect n))
    (hdestroyed : o₁.destroyed = o.destroyed)
    (hnew : Standing s₁ (id, m) (o₁.get m) (o₁.calls.count (.connect m)) (o₁.calls.count (.disconnect m))
      o₁.destroyed) :
    Wellkept (s₁.setObject id o₁) where
  table_lt := hlt
  made_lt := hmade_lt
  maker := hmaker
  absent id' hnone n := by
    have hne : id' ≠ id := by
      rintro rfl
      simp [Process.setObject] at hnone
    have hold : s.objects id' = none := by
      rw [← hobjects]
      simpa [Process.setObject, hne] using hnone
    obtain ⟨hmade, hcloses, -⟩ := hother (id', n) fun heq => hne (congrArg Prod.fst heq)
    obtain ⟨hmade', hcloses'⟩ := h.absent id' hold n
    exact ⟨hmade.trans hmade', hcloses.trans hcloses'⟩
  standing id' o' hsome n := by
    by_cases heq : id' = id
    · -- The object itself: its member has changed as `hnew` says, and the other member is as it was.
      subst heq
      obtain rfl : o₁ = o' := by simpa [Process.setObject] using hsome
      by_cases hn : n = m
      · subst hn
        exact hnew.frame rfl rfl fun _ _ htable => htable
      · obtain ⟨hmade, hcloses, htable⟩ := hother (id', n) fun heq => hn (congrArg Prod.snd heq)
        obtain ⟨hget, hconnect, hdisconnect⟩ := hsame n hn
        rw [hget, hconnect, hdisconnect, hdestroyed]
        exact (h.standing id' o hid n).frame hmade hcloses fun k => htable _ k
    · -- Every other object is as it was.
      have hold : s.objects id' = some o' := by
        rw [← hobjects]
        simpa [Process.setObject, heq] using hsome
      obtain ⟨hmade, hcloses, htable⟩ := hother (id', n) fun hpair => heq (congrArg Prod.fst hpair)
      exact (h.standing id' o' hold n).frame hmade hcloses fun k => htable _ k

theorem begun (h : Wellkept s) (hbegin : s.begin id calls destroyed = some s₁)
    (hcalls : ∀ o, s.objects id = some o → ∀ m, Standing s (id, m) (o.get m) 0 0 false →
      Standing s (id, m) (o.get m) (calls.count (.connect m)) (calls.count (.disconnect m)) destroyed) :
    Wellkept s₁ := by
  obtain ⟨o, hid, hmap⟩ := Option.bind_eq_some_iff.mp hbegin
  obtain ⟨o₁, ho₁, rfl⟩ := Option.map_eq_some_iff.mp hmap
  simp only [RemoteSockets.begin] at ho₁
  split at ho₁
  · next hidle =>
    cases ho₁
    refine h.setObject fun m => ?_
    have hstands := h.standing id o hid m
    rw [hidle.1, hidle.2] at hstands
    have hget : ∀ m, RemoteSockets.get { o with calls := calls, result := -1, destroyed := destroyed } m = o.get m := by
      intro m
      cases m <;> rfl
    rw [hget]
    exact hcalls o hid m hstands
  · cases ho₁

theorem connect_begun {luaFirst : Bool} (h : Wellkept s) (hallowed : CallsOnce s (.connect id luaFirst))
    (hstep : s.step (.connect id luaFirst) = some s₁) : Wellkept s₁ := by
  refine h.begun hstep fun o hid m hidle => ?_
  have hconnect : (RemoteSockets.connectCalls luaFirst).count (.connect m) = 1 := by cases luaFirst <;> cases m <;> rfl
  have hdisconnect : (RemoteSockets.connectCalls luaFirst).count (.disconnect m) = 0 := by
    cases luaFirst <;> cases m <;> rfl
  rw [hconnect, hdisconnect]
  exact hidle.connects (hallowed o hid m)

theorem disconnect_begun (h : Wellkept s) (hallowed : CallsOnce s (.disconnect id))
    (hstep : s.step (.disconnect id) = some s₁) : Wellkept s₁ := by
  refine h.begun hstep fun o hid m hidle => ?_
  cases m with
  | lua => exact hidle
  | binary =>
    -- Both calls are on this socket, which has no port.
    have hdisabled : (o.get .binary).isDisabled = true := hallowed o hid
    cases hidle with
    | disabled ht hmade hcloses => exact .disabled ht hmade hcloses
    | unused ht _ _ _ | «open» _ ht _ _ _ _ => exact absurd (ht.symm.trans hdisabled) Bool.false_ne_true

theorem destroy_begun (h : Wellkept s) (hallowed : CallsOnce s (.destroy id))
    (hstep : s.step (.destroy id) = some s₁) : Wellkept s₁ := by
  refine h.begun hstep fun o hid m hidle => ?_
  have hconnect : RemoteSockets.destroyCalls.count (.connect m) = 0 := by cases m <;> rfl
  have hdisconnect : RemoteSockets.destroyCalls.count (.disconnect m) = 1 := by cases m <;> rfl
  rw [hconnect, hdisconnect]
  exact hidle.destroys (hallowed o hid m)

theorem table_lt_opened (h : Wellkept s) {fd' : CInt} {k : Nat} (htable : (s.opened fd).table fd' = some k) :
    k < (s.opened fd).next := by
  simp only [opened, Function.update_apply] at htable
  split at htable
  · cases htable
    exact Nat.lt_succ_self _
  · exact Nat.lt_succ_of_lt (h.table_lt fd' k htable)

theorem table_lt_closed (h : Wellkept s) {fd' : CInt} {k : Nat} (htable : (s.closed fd).table fd' = some k) :
    k < s.next := by
  simp only [closed, Function.update_apply] at htable
  split at htable
  · cases htable
  · exact h.table_lt fd' k htable

theorem get_called {t : TcpClientSocket} {result : CInt} :
    RemoteSockets.get { o.set t m with calls := rest, result } m = t := by
  cases m <;> rfl

theorem destroyed_called {t : TcpClientSocket} {result : CInt} :
    RemoteSockets.destroyed { o.set t m with calls := rest, result } = o.destroyed := by
  cases m <;> rfl

/-- The other socket of the object has the same calls before it. -/
theorem other_called {n : Member} {c : SocketCall} {t : TcpClientSocket} {result : CInt} (hcalls : o.calls = c :: rest)
    (hc : c = .connect m ∨ c = .disconnect m) (hn : n ≠ m) :
    RemoteSockets.get { o.set t m with calls := rest, result } n = o.get n ∧
      rest.count (.connect n) = o.calls.count (.connect n) ∧
      rest.count (.disconnect n) = o.calls.count (.disconnect n) := by
  refine ⟨by cases m <;> cases n <;> first | rfl | exact absurd rfl hn, ?_⟩
  rcases hc with rfl | rfl <;>
  · rw [hcalls, List.count_cons_of_ne, List.count_cons_of_ne]
    · exact ⟨rfl, rfl⟩
    all_goals simp [Ne.symm hn]

theorem called_disabled {c : SocketCall} {result : CInt} (h : Wellkept s) (hid : s.objects id = some o)
    (hcalls : o.calls = c :: rest) (hc : c = .connect m ∨ c = .disconnect m) (ht : (o.get m).isDisabled = true) :
    Wellkept (s.setObject id { o.set (o.get m) m with calls := rest, result }) := by
  refine h.acted m hid rfl h.table_lt h.made_lt h.maker (fun _ _ => ⟨rfl, rfl, fun _ _ _ htable => htable⟩)
    (fun n hn => other_called hcalls hc hn) destroyed_called ?_
  rw [get_called]
  obtain ⟨hmade, hcloses⟩ := (h.standing id o hid m).nothing ht
  exact .disabled ht hmade hcloses

theorem connecting (h : Wellkept s) (hid : s.objects id = some o) (hcalls : o.calls = .connect m :: rest)
    (ht : (o.get m).isDisabled = false) :
    s.madeBy (id, m) = [] ∧ s.closedBy (id, m) = [] ∧ rest.count (.connect m) = 0 ∧ rest.count (.disconnect m) = 0 ∧
      o.destroyed = false := by
  have hstands := h.standing id o hid m
  rw [hcalls, List.count_cons_self, List.count_cons_of_ne (by simp)] at hstands
  exact hstands.connecting ht

theorem disconnecting (h : Wellkept s) (hid : s.objects id = some o) (hcalls : o.calls = .disconnect m :: rest)
    (ht : (o.get m).isDisabled = false) :
    ∃ k, s.madeBy (id, m) = [((id, m), k)] ∧ s.closedBy (id, m) = [] ∧ s.table (o.get m).targetSocket = some k ∧
      rest.count (.connect m) = 0 ∧ rest.count (.disconnect m) = 0 ∧ o.destroyed = true := by
  have hstands := h.standing id o hid m
  rw [hcalls, List.count_cons_self, List.count_cons_of_ne (by simp)] at hstands
  exact hstands.disconnecting ht

/-- `connect` on a socket with a port makes a descriptor. -/
theorem called_connect {result : CInt} (h : Wellkept s) (hid : s.objects id = some o)
    (hcalls : o.calls = .connect m :: rest)
    (ht : (o.get m).isDisabled = false) (hfd : s.table fd = none) {t : TcpClientSocket} (hport : t.isDisabled = false)
    (htarget : t.targetSocket = fd) :
    Wellkept (Process.setObject { s.opened fd with made := s.made ++ [((id, m), s.next)] } id
      { o.set t m with calls := rest, result }) := by
  obtain ⟨hmade, hcloses, hnc, hnd, hdestroyed⟩ := h.connecting hid hcalls ht
  refine h.acted m hid rfl (fun fd' k => h.table_lt_opened) ?_ ?_ ?_ (fun n hn => other_called hcalls (Or.inl rfl) hn)
    destroyed_called ?_
  · intro n k hmem
    rcases List.mem_append.mp hmem with hold | hnew
    · exact Nat.lt_succ_of_lt (h.made_lt n k hold)
    · cases List.mem_singleton.mp hnew
      exact Nat.lt_succ_self _
  · intro n n' k hmem hmem'
    rcases List.mem_append.mp hmem with hold | hnew <;> rcases List.mem_append.mp hmem' with hold' | hnew'
    · exact h.maker n n' k hold hold'
    · -- The new descriptor has the next number, which no older one has.
      cases List.mem_singleton.mp hnew'
      exact absurd (h.made_lt n _ hold) (Nat.lt_irrefl _)
    · cases List.mem_singleton.mp hnew
      exact absurd (h.made_lt n' _ hold') (Nat.lt_irrefl _)
    · cases List.mem_singleton.mp hnew
      cases List.mem_singleton.mp hnew'
      rfl
  · intro n hn
    refine ⟨?_, rfl, fun fd' k _ htable => ?_⟩
    · simp [madeBy, Ne.symm hn]
    · have hne : fd' ≠ fd := by
        rintro rfl
        rw [hfd] at htable
        cases htable
      simpa [opened, hne] using htable
  · rw [get_called, destroyed_called, hdestroyed, hnc, hnd]
    refine .open s.next hport ?_ hcloses ?_ rfl
    · have happend : ∀ n, madeBy { s.opened fd with made := s.made ++ [((id, m), s.next)] } n =
          s.madeBy n ++ [((id, m), s.next)].filter (·.1 = n) := fun n => List.filter_append _ _
      rw [happend, hmade]
      simp
    · rw [htarget]
      exact Function.update_self _ _ _

/-- `connect` where there is no descriptor to be had. -/
theorem called_connect_failed {result : CInt} (h : Wellkept s) (hid : s.objects id = some o)
    (hcalls : o.calls = .connect m :: rest) (ht : (o.get m).isDisabled = false) {t : TcpClientSocket}
    (hport : t.isDisabled = false) : Wellkept (s.setObject id { o.set t m with calls := rest, result }) := by
  obtain ⟨hmade, hcloses, hnc, hnd, hdestroyed⟩ := h.connecting hid hcalls ht
  refine h.acted m hid rfl h.table_lt h.made_lt h.maker (fun _ _ => ⟨rfl, rfl, fun _ _ _ htable => htable⟩)
    (fun n hn => other_called hcalls (Or.inl rfl) hn) destroyed_called ?_
  rw [get_called, destroyed_called, hdestroyed, hnd]
  exact .unused hport hmade hcloses (hnc.trans_le (Nat.zero_le 1))

/-- `disconnect` on a socket with a port closes the descriptor that it made. -/
theorem called_disconnect {result : CInt} (h : Wellkept s) (hid : s.objects id = some o)
    (hcalls : o.calls = .disconnect m :: rest) (ht : (o.get m).isDisabled = false) {t : TcpClientSocket}
    (hport : t.isDisabled = false) :
    Wellkept (Process.setObject { s.closed (o.get m).targetSocket with
      closes := s.closes ++ [((id, m), s.table (o.get m).targetSocket)] } id
      { o.set t m with calls := rest, result }) := by
  obtain ⟨k, hmade, hcloses, htable, hnc, hnd, hdestroyed⟩ := h.disconnecting hid hcalls ht
  have hmem : ((id, m), k) ∈ s.made := mem_madeBy.mp (hmade ▸ List.mem_singleton_self _)
  rw [htable]
  refine h.acted m hid rfl (fun fd' k' => h.table_lt_closed) h.made_lt h.maker ?_
    (fun n hn => other_called hcalls (Or.inr rfl) hn) destroyed_called ?_
  · intro n hn
    refine ⟨rfl, ?_, fun fd' k' hmem' htable' => ?_⟩
    · simp [closedBy, Ne.symm hn]
    · -- Another socket's descriptor has another number, so it is another descriptor.
      have hne : fd' ≠ (o.get m).targetSocket := by
        rintro rfl
        cases htable.symm.trans htable'
        exact hn (h.maker _ _ k hmem' hmem)
      simpa [closed, hne] using htable'
  · rw [get_called, destroyed_called, hdestroyed, hnc, hnd]
    refine .closed k hport hmade ?_
    have happend : ∀ n, closedBy { s.closed (o.get m).targetSocket with closes := s.closes ++ [((id, m), some k)] } n =
        s.closedBy n ++ [((id, m), some k)].filter (·.1 = n) := fun n => List.filter_append _ _
    rw [happend, hcloses]
    simp

theorem called (h : Wellkept s) (hstep : s.step (.call id fd res) = some s₁) : Wellkept s₁ := by
  simp only [Process.step] at hstep
  split at hstep
  on_goal 2 => cases hstep
  next o hid =>
  split at hstep
  on_goal 2 => cases hstep
  next c rest hcalls =>
  cases c with
  | connect m =>
    simp only [Process.call] at hstep
    obtain ⟨s', hsocket, rfl⟩ := Option.map_eq_some_iff.mp hstep
    -- A socket without a port neither makes nor closes a descriptor.
    cases ht : (o.get m).isDisabled with
    | true =>
      rw [ht, if_pos rfl] at hsocket
      cases hsocket
      rw [TcpClientSocket.connect_of_isDisabled ht]
      exact h.called_disabled hid hcalls (Or.inl rfl) ht
    | false =>
      have hport : ((o.get m).connect fd res).1.isDisabled = false := TcpClientSocket.connect_isDisabled.trans ht
      rw [ht, if_neg Bool.false_ne_true, Process.socket] at hsocket
      split at hsocket
      · cases hsocket
        exact h.called_connect_failed hid hcalls ht hport
      · split at hsocket
        · next hunused =>
          cases hsocket
          exact h.called_connect hid hcalls ht hunused.2 hport (TcpClientSocket.connect_targetSocket ht)
        · cases hsocket
  | disconnect m =>
    simp only [Process.call] at hstep
    cases hstep
    cases ht : (o.get m).isDisabled with
    | true =>
      rw [if_pos rfl, TcpClientSocket.disconnect_of_isDisabled ht]
      exact h.called_disabled hid hcalls (Or.inr rfl) ht
    | false =>
      rw [if_neg Bool.false_ne_true]
      exact h.called_disconnect hid hcalls ht (TcpClientSocket.disconnect_isDisabled.trans ht)

theorem step (h : Wellkept s) {a : ProcessAction} (hallowed : CallsOnce s a) (hstep : s.step a = some s₁) :
    Wellkept s₁ := by
  cases a with
  | create id luaPort binaryPort luaSocket binarySocket =>
    simp only [Process.step] at hstep
    split at hstep
    · next hid =>
      cases hstep
      refine h.setObject fun m => ?_
      obtain ⟨hmade, hcloses⟩ := h.absent id hid m
      cases ht : (RemoteSockets.get _ m).isDisabled with
      | true => exact .disabled ht hmade hcloses
      | false => exact .unused ht hmade hcloses (Nat.zero_le 1)
    · cases hstep
  | connect id luaFirst => exact h.connect_begun hallowed hstep
  | disconnect id => exact h.disconnect_begun hallowed hstep
  | destroy id => exact h.destroy_begun hallowed hstep
  | call id fd res => exact h.called hstep
  | otherOpen fd =>
    -- The descriptor was unused, so it is none of those that the objects have made.
    simp only [Process.step] at hstep
    split at hstep
    · next hunused =>
      cases hstep
      refine h.frame rfl rfl rfl (Nat.le_succ _) (fun fd' k => h.table_lt_opened) fun m fd' k _ htable => ?_
      have hne : fd' ≠ fd := by
        rintro rfl
        exact absurd (hunused.2.symm.trans htable) (by simp)
      simpa [opened, hne] using htable
    · cases hstep
  | otherClose fd =>
    simp only [Process.step] at hstep
    split at hstep
    on_goal 2 => cases hstep
    next k hopen =>
    split at hstep
    on_goal 2 => cases hstep
    -- What others close was made by no object.
    next hforeign =>
    cases hstep
    refine h.frame rfl rfl rfl (Nat.le_refl _) (fun fd' k' => h.table_lt_closed) fun m fd' k' hmem htable => ?_
    have hne : fd' ≠ fd := by
      rintro rfl
      cases hopen.symm.trans htable
      exact hforeign (List.mem_map_of_mem hmem)
    simpa [closed, hne] using htable

end Wellkept

/-! ## Runs -/

/-- A process whose descriptors are all numbered, and in which no socket was made yet. -/
structure Fresh (s : Process) : Prop where
  isStart : ∃ table next, s = Process.start table next
  numbered : ∀ fd k, s.table fd = some k → k < s.next

/-- Where the methods are called so, every descriptor is closed once, and nothing else is. -/
theorem descriptors_closed_once {s₀ s : Process} {actions : List ProcessAction} (h₀ : Fresh s₀)
    (hrun : Run Process.step CallsOnce s₀ actions s) : Balanced s := by
  obtain ⟨⟨table, next, rfl⟩, hnumbered⟩ := h₀
  exact (hrun.keeps (I := Wellkept) (fun _ _ _ h hallowed hstep => h.step hallowed hstep)
    (.start table hnumbered)).balanced

/-- An object connects, its second socket in vain, and is destroyed. -/
theorem descriptors_closed_once_connected :
    ∃ s, Balanced s ∧ s.closes = [((0, .binary), some 1), ((0, .lua), some 0)] := by
  have h₀ : Fresh (.start (fun _ => none) 0) := ⟨⟨_, _, rfl⟩, fun _ _ h => by cases h⟩
  have hrun : ∃ s, Run Process.step CallsOnce (.start (fun _ => none) 0)
      [.create 0 1 2 7 7, .connect 0 true, .call 0 3 (.ok ()), .call 0 4 (.error ⟨111, by decide⟩), .destroy 0,
        .call 0 0 (.ok ()), .call 0 0 (.ok ())] s ∧ s.closes = [((0, .binary), some 1), ((0, .lua), some 0)] := by
    refine ⟨_, .cons trivial rfl (.cons ?_ rfl (.cons trivial rfl (.cons trivial rfl (.cons ?_ rfl (.cons trivial rfl
      (.cons trivial rfl (.nil _))))))), rfl⟩
    · intro _ _ _ _ _
      exact List.not_mem_nil
    · intro _ _ m _
      cases m with
      | lua => exact ⟨0, by decide⟩
      | binary => exact ⟨1, by decide⟩
  obtain ⟨s, hrun, hcloses⟩ := hrun
  exact ⟨s, descriptors_closed_once h₀ hrun, hcloses⟩

/-- `disconnect` closes the descriptor of the binary socket twice, and that of the other one not at all. -/
theorem descriptors_not_closed_once :
    ∃ s, Run Process.step (fun _ _ => True) (.start (fun _ => none) 0)
      [.create 0 1 2 7 7, .connect 0 true, .call 0 3 (.ok ()), .call 0 4 (.ok ()), .disconnect 0, .call 0 0 (.ok ()),
        .otherOpen 4, .call 0 0 (.ok ())] s ∧ ¬ Balanced s := by
  refine ⟨_, .of_foldlM rfl, fun h => ?_⟩
  obtain ⟨k, hk, hmem⟩ := h.closes_own (0, .binary) (some 2) (by decide)
  cases hk
  exact absurd hmem (by decide)

end Dom0
