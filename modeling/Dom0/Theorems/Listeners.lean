import Dom0.Lib.Owners
import Dom0.Lib.Runs
import Dom0.Net.Listeners
import Mathlib.Data.List.Sublists

/-! Each handler gets the socket that was accepted for it. The listeners and the handlers share the heap, but each cell
with a socket belongs to one of them at a time: it is handed from the listener to the handler, which reads and frees it
once. -/

namespace Dom0

/-! ## Who owns what -/

/-- What holds a cell at a listener: `new_sock`, the threads one by one, and the `socket_desc` of each handler. -/
inductive Slot
  | sock
  | thread (k : Nat)
  | handler (k : Nat)
deriving DecidableEq

def ListenerPc.newSock : ListenerPc → Option Nat
  | .accept | .malloc _ => none
  | .store _ p | .calloc _ p | .create _ p _ => some p

def ListenerPc.snifferThread : ListenerPc → Option Nat
  | .create _ _ q => some q
  | .accept | .malloc _ | .store _ _ | .calloc _ _ => none

/-- The connection that was accepted and has no handler yet. -/
def ListenerPc.pending : ListenerPc → Option CInt
  | .accept => none
  | .malloc v | .store v _ | .calloc v _ | .create v _ _ => some v

/-- The socket is in its cell. -/
def ListenerPc.Stored : ListenerPc → Prop
  | .calloc _ _ | .create _ _ _ => True
  | .accept | .malloc _ | .store _ _ => False

def HandlerPc.socketDesc : HandlerPc → Option Nat
  | .read p | .free _ p => some p
  | .running _ => none

/-- The socket of a handler, or of the cell that it is still to read. -/
def HandlerPc.fd (heap : Nat → Option Cell) : HandlerPc → Option CInt
  | .read p =>
    match heap p with
    | some (.int v) => some v
    | _ => none
  | .free v _ | .running v => some v

def Listener.own (l : Listener) : Slot → Option Nat
  | .sock => l.pc.newSock
  | .thread k => l.threads[k]?
  | .handler k => l.handlers[k]?.bind HandlerPc.socketDesc

def Listeners.own (s : Listeners) (o : ListenerType × Slot) : Option Nat := (s.listener o.1).own o.2

/-- What a listener has done with the connections that it accepted: those of the handlers, in order, those that were
    lost, and perhaps one that is in work. -/
structure Listener.Serves (heap : Nat → Option Cell) (l : Listener) (done : List CInt) : Prop where
  stored : l.pc.Stored → ∀ p v, l.pc.newSock = some p → l.pc.pending = some v → heap p = some (.int v)
  thread : ∀ q, l.pc.snifferThread = some q → l.threads.getLast? = some q
  accepted : l.accepted = done ++ l.pc.pending.toList
  handlers : (l.handlers.map (HandlerPc.fd heap)).Sublist (done.map some)
  count : l.handlers.length + l.lost = done.length
  threads : l.threads.length = done.length + l.pc.snifferThread.toList.length

structure Listeners.Inv (s : Listeners) : Prop where
  no_fault : s.faulted = false
  exclusive : Exclusive s.own s.heap
  serves : ∀ t, ∃ done, (s.listener t).Serves s.heap done

section
variable {s s' : Listeners} {t t' : ListenerType} {l l' : Listener} {heap heap' : Nat → Option Cell} {done : List CInt}
    {x : Slot}
  {p q k : Nat} {v : CInt} {c : Option Cell} {a : ListenAction}

@[simp] theorem Listeners.heap_set : (s.set t l).heap = s.heap := rfl
@[simp] theorem Listeners.faulted_set : (s.set t l).faulted = s.faulted := rfl
@[simp] theorem Listeners.heap_setHeap : (s.setHeap p c).heap = Function.update s.heap p c := rfl
@[simp] theorem Listeners.faulted_setHeap : (s.setHeap p c).faulted = s.faulted := rfl
@[simp] theorem Listeners.listener_set_self : (s.set t l).listener t = l := Function.update_self ..
theorem Listeners.listener_set_of_ne (hne : t' ≠ t) : (s.set t l).listener t' = s.listener t' :=
    Function.update_of_ne hne ..

theorem Listeners.own_set_apply : (s.set t l).own (t', x) = if t' = t then l.own x else s.own (t', x) := by
  split
  · next ht =>
    subst ht
    rw [Listeners.own, listener_set_self]
  · next ht => rw [Listeners.own, Listeners.own, listener_set_of_ne ht]

theorem Listeners.own_set (h : l.own = (s.listener t).own) : (s.set t l).own = s.own := by
  funext ⟨t', x⟩
  rw [own_set_apply, h]
  split
  · next ht => rw [ht, Listeners.own]
  · rfl

theorem Listeners.own_set_update {c : Option Nat} (h : l.own = Function.update (s.listener t).own x c) :
    (s.set t l).own = Function.update s.own (t, x) c := by
  funext ⟨t', x'⟩
  rw [own_set_apply, h, Function.update_apply, Function.update_apply]
  by_cases ht : t' = t
  · subst ht
    rw [if_pos rfl]
    simp only [Prod.mk.injEq, true_and, Listeners.own]
  · rw [if_neg ht, if_neg fun heq => ht (Prod.mk.inj heq).1]

theorem Listener.map_fd_congr (hsame : ∀ k q, l.own (.handler k) = some q → heap' q = heap q) :
    l.handlers.map (HandlerPc.fd heap') = l.handlers.map (HandlerPc.fd heap) := by
  refine List.map_congr_left fun h hmem => ?_
  obtain ⟨k, hk⟩ := List.getElem?_of_mem hmem
  cases h with
  | read p => rw [HandlerPc.fd, HandlerPc.fd, hsame k p (by rw [Listener.own, hk]; rfl)]
  | free | running => rfl

/-- What others do to their cells does not touch a listener. -/
theorem Listener.Serves.congr (h : l.Serves heap done) (hsame : ∀ x q, l.own x = some q → heap' q = heap q) :
    l.Serves heap' done where
  stored hs p v hp hv := (hsame .sock p hp).trans (h.stored hs p v hp hv)
  thread := h.thread
  accepted := h.accepted
  handlers := Listener.map_fd_congr (fun k => hsame (.handler k)) ▸ h.handlers
  count := h.count
  threads := h.threads

/-- A step of one listener, with a change to one cell that no other slot holds. -/
theorem Listeners.Inv.set (h : s.Inv) (hown : Exclusive (((s.setHeap p c).set t l).own) (Function.update s.heap p c))
    (hothers : ∀ t' ≠ t, ∀ x q, s.own (t', x) = some q → q ≠ p)
    (hserves : ∃ done, l.Serves (Function.update s.heap p c) done) :
    ((s.setHeap p c).set t l).Inv where
  no_fault := h.no_fault
  exclusive := hown
  serves t' := by
    by_cases ht : t' = t
    · subst ht
      rw [listener_set_self]
      exact hserves
    · obtain ⟨done, hdone⟩ := h.serves t'
      rw [listener_set_of_ne ht]
      exact ⟨done, hdone.congr fun x q hq => Function.update_of_ne (hothers t' ht x q hq) ..⟩

/-- A step of one listener that leaves the heap. -/
theorem Listeners.Inv.set_same (h : s.Inv) (hown : Exclusive (s.set t l).own s.heap)
    (hserves : ∃ done, l.Serves s.heap done) :
    (s.set t l).Inv where
  no_fault := h.no_fault
  exclusive := hown
  serves t' := by
    by_cases ht : t' = t
    · subst ht
      rw [listener_set_self]
      exact hserves
    · obtain ⟨done, hdone⟩ := h.serves t'
      rw [listener_set_of_ne ht]
      exact ⟨done, hdone⟩

/-! ## What a step keeps -/

theorem getElem?_concat_of_ne {α : Type} {xs : List α} {y : α} (hne : k ≠ xs.length) : (xs ++ [y])[k]? = xs[k]? := by
  rcases Nat.lt_or_gt_of_ne hne with hlt | hgt
  · exact List.getElem?_append_left hlt
  · rw [List.getElem?_eq_none (by rw [List.length_append, List.length_singleton]; omega),
      List.getElem?_eq_none (by omega)]

theorem Listeners.Inv.accept (h : s.Inv) (hpc : (s.listener t).pc = .accept) (v : CInt) :
    (s.set t { s.listener t with pc := .malloc v, accepted := (s.listener t).accepted ++ [v] }).Inv := by
  obtain ⟨done, hdone⟩ := h.serves t
  refine h.set_same ?_ ⟨done, ?_⟩
  · rw [own_set]
    · exact h.exclusive
    · funext x
      cases x with
      | sock => simp only [Listener.own, hpc, ListenerPc.newSock]
      | thread | handler => rfl
  · have haccepted := hdone.accepted
    have hthreads := hdone.threads
    simp only [hpc, ListenerPc.pending, ListenerPc.snifferThread, Option.toList_none,
      List.append_nil] at haccepted hthreads
    refine ⟨False.elim, fun q hq => (by cases hq), ?_, hdone.handlers, hdone.count, hthreads⟩
    simp only [haccepted, ListenerPc.pending, Option.toList_some]

theorem Listeners.Inv.malloc (h : s.Inv) (hpc : (s.listener t).pc = .malloc v) (hfree : s.heap p = none) :
    ((s.setHeap p (some .junk)).set t { s.listener t with pc := .store v p }).Inv := by
  obtain ⟨done, hdone⟩ := h.serves t
  have hothers : ∀ t' x q, s.own (t', x) = some q → q ≠ p := fun t' x q hq => h.exclusive.ne_of_free hfree hq
  refine h.set ?_ (fun t' _ => hothers t') ⟨done, ?_⟩
  · rw [own_set_update (x := .sock) (c := some p)]
    · exact h.exclusive.acquire hfree _ _
    · funext x
      cases x with
      | sock => rw [Function.update_self]; rfl
      | thread | handler => rw [Function.update_of_ne (by simp)]; rfl
  · have hsame : ∀ x q, (s.listener t).own x = some q → Function.update s.heap p (some Cell.junk) q = s.heap q :=
      fun x q hq => Function.update_of_ne (hothers t x q hq) ..
    have hdone := hdone.congr hsame
    have haccepted := hdone.accepted
    have hthreads := hdone.threads
    rw [hpc] at haccepted hthreads
    exact ⟨False.elim, fun q hq => (by cases hq), haccepted, hdone.handlers, hdone.count, hthreads⟩

theorem Listeners.Inv.map_fd (h : s.Inv) (hp : s.own (t, x) = some p) (hx : ∀ k, x ≠ .handler k) (c : Option Cell) :
    (s.listener t).handlers.map (HandlerPc.fd (Function.update s.heap p c)) =
      (s.listener t).handlers.map (HandlerPc.fd s.heap) := by
  refine Listener.map_fd_congr fun k q hq => Function.update_of_ne ?_ ..
  have hq : s.own (t, .handler k) = some q := hq
  exact h.exclusive.ne_of_ne hp hq fun heq => hx k (Prod.mk.inj heq).2.symm

theorem Listeners.Inv.store (h : s.Inv) (hpc : (s.listener t).pc = .store v p) :
    s.heap p ≠ none ∧ ((s.setHeap p (some (.int v))).set t { s.listener t with pc := .calloc v p }).Inv := by
  obtain ⟨done, hdone⟩ := h.serves t
  have hsock : s.own (t, .sock) = some p := by rw [Listeners.own, Listener.own, hpc]; rfl
  have hlive := h.exclusive.live hsock
  refine ⟨fun hnone => (by rw [hnone] at hlive; cases hlive), ?_⟩
  refine h.set ?_ (fun t' ht x q hq => h.exclusive.ne_of_ne hsock hq (by simp [ht])) ⟨done, ?_⟩
  · rw [own_set]
    · exact h.exclusive.write p _
    · funext x
      cases x with
      | sock =>
        exact hsock.symm
      | thread | handler => rfl
  · have haccepted := hdone.accepted
    have hthreads := hdone.threads
    rw [hpc] at haccepted hthreads
    refine ⟨fun _ p' v' hp' hv' => ?_, fun q hq => (by cases hq), haccepted, ?_, hdone.count, hthreads⟩
    · cases hp'
      cases hv'
      exact Function.update_self ..
    · exact (h.map_fd hsock (by simp) _).symm ▸ hdone.handlers

theorem Listeners.Inv.calloc (h : s.Inv) (hpc : (s.listener t).pc = .calloc v p) (hfree : s.heap q = none) :
    ((s.setHeap q (some (.thread 0))).set t
      { s.listener t with pc := .create v p q, threads := (s.listener t).threads ++ [q] }).Inv := by
  obtain ⟨done, hdone⟩ := h.serves t
  have hothers : ∀ t' x q', s.own (t', x) = some q' → q' ≠ q := fun t' x q' hq => h.exclusive.ne_of_free hfree hq
  refine h.set ?_ (fun t' _ => hothers t') ⟨done, ?_⟩
  · rw [own_set_update (x := .thread (s.listener t).threads.length) (c := some q)]
    · exact h.exclusive.acquire hfree _ _
    · funext x
      cases x with
      | sock =>
        rw [Function.update_of_ne (by simp)]
        show some p = (s.listener t).own .sock
        rw [Listener.own, hpc]
        rfl
      | thread k =>
        simp only [Listener.own, Function.update_apply, Slot.thread.injEq]
        split
        · next heq => rw [heq, List.getElem?_concat_length]
        · next hne => exact getElem?_concat_of_ne hne
      | handler => rw [Function.update_of_ne (by simp)]; rfl
  · have hsame : ∀ x q', (s.listener t).own x = some q' →
        Function.update s.heap q (some (Cell.thread 0)) q' = s.heap q' :=
      fun x q' hq => Function.update_of_ne (hothers t x q' hq) ..
    have hdone := hdone.congr hsame
    have haccepted := hdone.accepted
    have hthreads := hdone.threads
    have hstored := hdone.stored
    rw [hpc] at haccepted hthreads hstored
    refine ⟨fun _ p' v' hp' hv' => ?_, fun q' hq' => ?_, haccepted, hdone.handlers, hdone.count, ?_⟩
    · exact hstored trivial p' v' hp' hv'
    · cases hq'
      exact List.getLast?_concat
    · simp only [List.length_append, List.length_singleton, hthreads]
      rfl

theorem Listeners.Inv.create_failed (h : s.Inv) (hpc : (s.listener t).pc = .create v p q) :
    (s.set t { s.listener t with pc := .accept, lost := (s.listener t).lost + 1 }).Inv := by
  obtain ⟨done, hdone⟩ := h.serves t
  refine h.set_same ?_ ⟨done ++ [v], ?_⟩
  · rw [own_set_update (x := .sock) (c := none)]
    · exact h.exclusive.forget _
    · funext x
      cases x with
      | sock => rw [Function.update_self]; rfl
      | thread | handler => rw [Function.update_of_ne (by simp)]; rfl
  · have haccepted := hdone.accepted
    have hthreads := hdone.threads
    have hcount := hdone.count
    rw [hpc] at haccepted hthreads
    refine ⟨False.elim, fun q hq => (by cases hq), ?_, ?_, ?_, ?_⟩
    · rw [haccepted]
      exact (List.append_nil _).symm
    · rw [List.map_append]
      exact hdone.handlers.trans (List.sublist_append_left _ _)
    · simp only [List.length_append, List.length_singleton]
      omega
    · rw [List.length_append]
      exact hthreads

theorem Listeners.Inv.create (h : s.Inv) (hpc : (s.listener t).pc = .create v p q) (id : Nat) :
    s.heap q ≠ none ∧ ((s.setHeap q (some (.thread id))).set t
      { s.listener t with pc := .accept, handlers := (s.listener t).handlers ++ [.read p] }).Inv := by
  obtain ⟨done, hdone⟩ := h.serves t
  have hlast := hdone.thread q (by rw [hpc]; rfl)
  obtain ⟨threads, hthread⟩ := List.getLast?_eq_some_iff.mp hlast
  have hthread : s.own (t, .thread threads.length) = some q := by
    rw [Listeners.own, Listener.own, hthread, List.getElem?_concat_length]
  have hsock : s.own (t, .sock) = some p := by rw [Listeners.own, Listener.own, hpc]; rfl
  have hlive := h.exclusive.live hthread
  have hpq : p ≠ q := h.exclusive.ne_of_ne hthread hsock (by simp)
  refine ⟨fun hnone => (by rw [hnone] at hlive; cases hlive), ?_⟩
  refine h.set ?_ (fun t' ht x q' hq' => h.exclusive.ne_of_ne hthread hq' (by simp [ht]))
    ⟨done ++ [v], ?_⟩
  · -- The block of the socket goes from the listener to the handler that it began.
    have hown : ((s.setHeap q (some (.thread id))).set t
        { s.listener t with pc := .accept, handlers := (s.listener t).handlers ++ [.read p] }).own =
          Function.update (Function.update s.own (t, .sock) none) (t, .handler (s.listener t).handlers.length)
              (some p) := by
      funext ⟨t', x⟩
      rw [own_set_apply, Function.update_apply, Function.update_apply]
      by_cases ht : t' = t
      · subst ht
        cases x with
        | sock => simp [Listener.own, ListenerPc.newSock]
        | thread k =>
          rw [if_pos rfl, if_neg (by simp), if_neg (by simp)]
          rfl
        | handler k =>
          rw [if_pos rfl]
          by_cases hk : k = (s.listener t').handlers.length
          · subst hk
            rw [if_pos rfl, Listener.own, List.getElem?_concat_length]
            rfl
          · rw [if_neg (by simp [hk]), if_neg (by simp), Listener.own, getElem?_concat_of_ne hk]
            rfl
      · rw [if_neg ht, if_neg (by simp [ht]), if_neg (by simp [ht])]
        rfl
    rw [hown]
    exact (h.exclusive.hand hsock _).write q _
  · have hstored := hdone.stored (by rw [hpc]; trivial) p v (by rw [hpc]; rfl) (by rw [hpc]; rfl)
    have haccepted := hdone.accepted
    have hthreads := hdone.threads
    have hcount := hdone.count
    rw [hpc] at haccepted hthreads
    refine ⟨False.elim, fun q hq => (by cases hq), ?_, ?_, ?_, ?_⟩
    · rw [haccepted]
      exact (List.append_nil _).symm
    · -- The block of the new handler holds the descriptor that was accepted last.
      have hfd : HandlerPc.fd (Function.update s.heap q (some (.thread id))) (.read p) = some v := by
        rw [HandlerPc.fd, Function.update_of_ne hpq, hstored]
      rw [List.map_append, List.map_singleton, hfd, List.map_append, List.map_singleton, h.map_fd hthread (by simp)]
      exact hdone.handlers.append (List.Sublist.refl _)
    · simp only [List.length_append, List.length_singleton]
      omega
    · rw [List.length_append]
      exact hthreads

/-- A handler goes on. -/
theorem Listener.getElem?_set_handler {l : Listener} {pc pc' : HandlerPc} (hk : l.handlers[k]? = some pc) (j : Nat) :
    (l.handlers.set k pc')[j]? = if j = k then some pc' else l.handlers[j]? := by
  have hlt := (List.getElem?_eq_some_iff.mp hk).1
  split
  · next hj =>
    subst hj
    exact List.getElem?_set_self hlt
  · next hj => exact List.getElem?_set_ne (Ne.symm hj)

theorem Listeners.Inv.read (h : s.Inv) (hk : (s.listener t).handlers[k]? = some (.read p)) :
    ∃ v, s.heap p = some (.int v) ∧
      (s.set t { s.listener t with handlers := (s.listener t).handlers.set k (.free v p) }).Inv := by
  obtain ⟨done, hdone⟩ := h.serves t
  -- the socket is one that was accepted
  obtain ⟨v, hv⟩ : ∃ v, HandlerPc.fd s.heap (.read p) = some v := by
    have hmem := hdone.handlers.subset (List.mem_map_of_mem (List.mem_of_getElem? hk))
    obtain ⟨v, -, hv⟩ := List.mem_map.mp hmem
    exact ⟨v, hv.symm⟩
  have hheap : s.heap p = some (.int v) := by
    simp only [HandlerPc.fd] at hv
    split at hv
    · next v' hp =>
      cases hv
      exact hp
    · cases hv
  refine ⟨v, hheap, h.set_same ?_ ⟨done, ?_⟩⟩
  · rw [own_set]
    · exact h.exclusive
    · funext x
      cases x with
      | sock | thread => rfl
      | handler j =>
        rw [Listener.own, Listener.own, Listener.getElem?_set_handler hk]
        split
        · next hj => rw [hj, hk]; rfl
        · rfl
  · have hmap : ((s.listener t).handlers.set k (.free v p)).map (HandlerPc.fd s.heap) =
        (s.listener t).handlers.map (HandlerPc.fd s.heap) := by
      refine List.ext_getElem? fun j => ?_
      rw [List.getElem?_map, List.getElem?_map, Listener.getElem?_set_handler hk]
      split
      · next hj => rw [hj, hk, Option.map_some, Option.map_some, hv]; rfl
      · rfl
    refine ⟨hdone.stored, hdone.thread, hdone.accepted, ?_, ?_, hdone.threads⟩
    · rw [hmap]
      exact hdone.handlers
    · rw [List.length_set]
      exact hdone.count

theorem Listeners.Inv.free (h : s.Inv) (hk : (s.listener t).handlers[k]? = some (.free v p)) :
    s.heap p ≠ none ∧ ((s.setHeap p none).set t
      { s.listener t with handlers := (s.listener t).handlers.set k (.running v) }).Inv := by
  obtain ⟨done, hdone⟩ := h.serves t
  have hdesc : s.own (t, .handler k) = some p := by rw [Listeners.own, Listener.own, hk]; rfl
  have hlive := h.exclusive.live hdesc
  refine ⟨fun hnone => (by rw [hnone] at hlive; cases hlive), ?_⟩
  refine h.set ?_ (fun t' ht x q hq => h.exclusive.ne_of_ne hdesc hq (by simp [ht])) ⟨done, ?_⟩
  · rw [own_set_update (x := .handler k) (c := none)]
    · exact h.exclusive.release hdesc
    · funext x
      cases x with
      | sock | thread =>
        rw [Function.update_of_ne (by simp)]
        rfl
      | handler j =>
        rw [Listener.own, Listener.getElem?_set_handler hk, Function.update_apply]
        simp only [Slot.handler.injEq]
        split
        · rfl
        · rfl
  · have hmap : ((s.listener t).handlers.set k (.running v)).map (HandlerPc.fd (Function.update s.heap p none)) =
        (s.listener t).handlers.map (HandlerPc.fd s.heap) := by
      refine List.ext_getElem? fun j => ?_
      rw [List.getElem?_map, List.getElem?_map, Listener.getElem?_set_handler hk]
      split
      · next hj => rw [hj, hk]; rfl
      · next hj =>
        cases hpc : (s.listener t).handlers[j]? with
        | none => rfl
        | some pc =>
          cases pc with
          | read q =>
            have hq : s.own (t, .handler j) = some q := by rw [Listeners.own, Listener.own, hpc]; rfl
            have hne : q ≠ p := h.exclusive.ne_of_ne hdesc hq (by simp [hj])
            rw [Option.map_some, Option.map_some, HandlerPc.fd, HandlerPc.fd, Function.update_of_ne hne]
          | free | running => rfl
    refine ⟨fun hs p' v' hp' hv' => ?_, hdone.thread, hdone.accepted, ?_, ?_, hdone.threads⟩
    · have hsock : s.own (t, .sock) = some p' := hp'
      exact (Function.update_of_ne (h.exclusive.ne_of_ne hdesc hsock (by simp)) ..).trans
        (hdone.stored hs p' v' hp' hv')
    · rw [hmap]
      exact hdone.handlers
    · rw [List.length_set]
      exact hdone.count

theorem Listeners.inv_start (heap : Nat → Option Cell) : (Listeners.start heap).Inv where
  no_fault := rfl
  exclusive := by
    have hnone : ∀ o, (Listeners.start heap).own o = none := by
      rintro ⟨t, x⟩
      cases x <;> rfl
    refine ⟨fun ho => ?_, fun ho => ?_⟩
    · rw [hnone] at ho
      cases ho
    · rw [hnone] at ho
      cases ho
  serves _ := ⟨[], False.elim, fun q hq => (by cases hq), rfl, List.nil_sublist _, rfl, rfl⟩

theorem Listeners.Inv.step (h : s.Inv) (hstep : s.step (t, a) = some s') : s'.Inv := by
  cases a with
  | accept newfd =>
    cases hpc : (s.listener t).pc with
    | accept =>
      simp only [Listeners.step, hpc, Option.some.injEq] at hstep
      exact hstep ▸ h.accept hpc newfd
    | malloc | store | calloc | create => simp [Listeners.step, hpc] at hstep
  | malloc p =>
    cases hpc : (s.listener t).pc with
    | malloc newfd =>
      simp only [Listeners.step, hpc, Option.ite_none_right_eq_some, Option.some.injEq] at hstep
      exact hstep.2 ▸ h.malloc hpc hstep.1
    | accept | store | calloc | create => simp [Listeners.step, hpc] at hstep
  | store =>
    cases hpc : (s.listener t).pc with
    | store newfd p =>
      obtain ⟨hlive, hinv⟩ := h.store hpc
      simp only [Listeners.step, hpc, if_neg hlive, Option.some.injEq] at hstep
      exact hstep ▸ hinv
    | accept | malloc | calloc | create => simp [Listeners.step, hpc] at hstep
  | calloc q =>
    cases hpc : (s.listener t).pc with
    | calloc newfd p =>
      simp only [Listeners.step, hpc, Option.ite_none_right_eq_some, Option.some.injEq] at hstep
      exact hstep.2 ▸ h.calloc hpc hstep.1
    | accept | malloc | store | create => simp [Listeners.step, hpc] at hstep
  | create id =>
    cases hpc : (s.listener t).pc with
    | create newfd p q =>
      cases id with
      | none =>
        simp only [Listeners.step, hpc, Option.some.injEq] at hstep
        exact hstep ▸ h.create_failed hpc
      | some id =>
        obtain ⟨hlive, hinv⟩ := h.create hpc id
        simp only [Listeners.step, hpc, if_neg hlive, Option.some.injEq] at hstep
        exact hstep ▸ hinv
    | accept | malloc | store | calloc => cases id <;> simp [Listeners.step, hpc] at hstep
  | read k =>
    simp only [Listeners.step] at hstep
    split at hstep
    · next p hk =>
      obtain ⟨v, hheap, hinv⟩ := h.read hk
      simp only [hheap, Option.some.injEq] at hstep
      exact hstep ▸ hinv
    · cases hstep
  | free k =>
    simp only [Listeners.step] at hstep
    split at hstep
    · next v p hk =>
      obtain ⟨hlive, hinv⟩ := h.free hk
      simp only [if_neg hlive, Option.some.injEq] at hstep
      exact hstep ▸ hinv
    · cases hstep

/-- What holds of the listeners and their handlers in every state. -/
structure Listeners.Served (s : Listeners) : Prop where
  no_fault : s.faulted = false
  /-- No cell is held twice, and what is held was not given back. -/
  exclusive : Exclusive s.own s.heap
  /-- The handlers of a listener have the sockets that it accepted, in order and once each. -/
  sockets : ∀ t, ((s.listener t).handlers.map (HandlerPc.fd s.heap)).Sublist ((s.listener t).accepted.map some)
  count : ∀ t, (s.listener t).accepted.length =
    (s.listener t).handlers.length + (s.listener t).lost + (s.listener t).pc.pending.toList.length
  /-- A cell for the thread is left behind for each connection. -/
  threads : ∀ t, (s.listener t).handlers.length + (s.listener t).lost ≤ (s.listener t).threads.length

theorem Listeners.Inv.served (h : s.Inv) : s.Served := by
  refine ⟨h.no_fault, h.exclusive, fun t => ?_, fun t => ?_, fun t => ?_⟩
  · obtain ⟨done, hdone⟩ := h.serves t
    rw [hdone.accepted, List.map_append]
    exact hdone.handlers.trans (List.sublist_append_left _ _)
  · obtain ⟨done, hdone⟩ := h.serves t
    rw [hdone.accepted, List.length_append, ← hdone.count]
  · obtain ⟨done, hdone⟩ := h.serves t
    rw [hdone.threads, ← hdone.count]
    exact Nat.le_add_right _ _

/-- However the listeners and the handlers take turns and whichever cells `malloc` gives: no cell is touched that is not
    there, and every handler has the socket of its own connection. -/
theorem Listeners.run_served {actions : List (ListenerType × ListenAction)} (heap : Nat → Option Cell)
    (hrun : Run Listeners.step (fun _ _ => True) (.start heap) actions s) : s.Served :=
  (hrun.keeps (fun _ _ _ h _ hstep => h.step hstep) (inv_start heap)).served

end

/-- Both listeners accept a connection at the same time; the handler of one has freed its cell, which the other one
    gets. -/
theorem Listeners.run_served_both : ∃ s : Listeners, (s.listener .lua).handlers = [.running 5] ∧
    (s.listener .binary).handlers = [.read 1] ∧ s.Served := by
  have hrun : Run Listeners.step (fun _ _ => True) (.start fun _ => none)
      [(.lua, .accept 5), (.binary, .accept 6), (.lua, .malloc 1), (.lua, .store), (.lua, .calloc 2),
        (.lua, .create (some 7)),
        (.lua, .read 0), (.lua, .free 0), (.binary, .malloc 1), (.binary, .store), (.binary, .calloc 3),
        (.binary, .create (some 8))] _ := Run.of_foldlM rfl
  exact ⟨_, rfl, rfl, run_served _ hrun⟩

end Dom0
