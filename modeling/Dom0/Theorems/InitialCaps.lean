import Dom0.Ned.InitialCaps
import Mathlib.Data.Option.Basic
import Mathlib.Data.Nat.ModEq

/-! The slots of the initial capabilities. The two functions count the capabilities that they find, each on its own, so
a name and its capability meet in one slot where the second finds at each place what the first has found there. -/

namespace Dom0
namespace Am

/-! ## What is asked -/

section
variable {w : Word} {ℓ φ τ κ : Type}

/-- Whatever is mapped goes into the slot that was recorded under its name, and where the second function comes to its
    end, every entry has its capability. It is not called where the first one fails. -/
def SlotsAgree (L : CapsLua w ℓ φ τ κ) (X : Launch ℓ) (fuel fuel' : Nat) (lua : ℓ) (start : ULong w) : Prop :=
  ∀ lua', (pushInitialCaps L X fuel lua start).2 = some lua' →
    (∀ m ∈ (mapInitialCaps L X fuel' (X.between lua') start).1.1,
      (m.name, m.slot) ∈ (pushInitialCaps L X fuel lua start).1.1) ∧
    ((mapInitialCaps L X fuel' (X.between lua') start).2 ≠ none → ∀ e ∈ (pushInitialCaps L X fuel lua start).1.1,
      ∃ m ∈ (mapInitialCaps L X fuel' (X.between lua') start).1.1, (m.name, m.slot) = e)

/-- One more name, where what is done with its capability works. -/
def collect (works : Nat → Bool) (names : List (List UInt8)) (r : List UInt8) (_ : LuaCap w) :
    Option (List (List UInt8)) :=
  if works names.length then some (names ++ [r]) else none

/-- The names of the capabilities that are found one after the other. -/
def found (L : CapsLua w ℓ φ τ κ) (check : List UInt8 → Bool) (works : Nat → Bool) (fuel : Nat) (lua : ℓ) :
    List (List UInt8) × Option ℓ :=
  withCaps L check (collect works) fuel lua []

/-- How many slots there are, before their numbers wrap. -/
def slotCount (w : Word) : Nat := 2 ^ (8 * w.bytes - l4CapShift)

/-- A name is found at a place, or at one that is a multiple of `slotCount` away. -/
def FoundAt (w : Word) (names : List (List UInt8)) (place : Nat) (name : List UInt8) : Prop :=
  ∃ i, names[i]? = some name ∧ i ≡ place [MOD slotCount w]

/-- The second function finds the same names at the same places, as far as it comes. -/
def FindsSame (L : CapsLua w ℓ φ τ κ) (X : Launch ℓ) (fuel fuel' : Nat) (lua : ℓ) : Prop :=
  ∀ lua', (found L X.isValidName X.pushes fuel lua).2 = some lua' →
    (∀ place name, (found L (fun _ => true) X.maps fuel' (X.between lua')).1[place]? = some name →
      FoundAt w (found L X.isValidName X.pushes fuel lua).1 place name) ∧
    ((found L (fun _ => true) X.maps fuel' (X.between lua')).2 ≠ none →
      ∀ place name, (found L X.isValidName X.pushes fuel lua).1[place]? = some name →
        FoundAt w (found L (fun _ => true) X.maps fuel' (X.between lua')).1 place name)

end

/-! ## Visitors of the table -/

section
variable {w : Word} {ℓ φ τ κ σ σ' : Type} {L : CapsLua w ℓ φ τ κ} {check : List UInt8 → Bool}
  {visit : σ → List UInt8 → LuaCap w → Option σ} {visit' : σ' → List UInt8 → LuaCap w → Option σ'} {R : σ → σ' → Prop}

/-- Visitors that keep a relation end in it, and end together. -/
theorem eachCap_rel (hvisit : ∀ s s' r c, R s s' → Option.Rel R (visit s r c) (visit' s' r c)) (tab : τ) (fuel : Nat) :
    ∀ (lua : ℓ) (key : Option κ) (s : σ) (s' : σ'), R s s' →
      R (eachCap L check visit tab fuel lua key s).1 (eachCap L check visit' tab fuel lua key s').1 ∧
        (eachCap L check visit tab fuel lua key s).2 = (eachCap L check visit' tab fuel lua key s').2 := by
  induction fuel with
  | zero => exact fun _ _ _ _ h => ⟨h, rfl⟩
  | succ fuel ih =>
    intro lua key s s' h
    rcases hnext : L.next lua tab key with _ | _ | ⟨key', v⟩
    · simp only [eachCap, hnext]
      exact ⟨h, trivial⟩
    · simp only [eachCap, hnext]
      exact ⟨h, trivial⟩
    rcases hname : L.checkstring key' with _ | ⟨r, key'⟩
    · simp only [eachCap, hnext, hname]
      exact ⟨h, trivial⟩
    by_cases hcheck : check r = true
    · rcases hcall : callFunctions L tab fuel lua v with _ | ⟨lua', v'⟩
      · simp only [eachCap, hnext, hname, if_pos hcheck, hcall]
        exact ⟨h, trivial⟩
      cases v' with
      | cap c =>
        simp only [eachCap, hnext, hname, if_pos hcheck, hcall]
        have hrel := hvisit s s' r c h
        cases hs : visit s r c <;> cases hs' : visit' s' r c <;> rw [hs, hs'] at hrel <;> cases hrel
        · exact ⟨h, rfl⟩
        · next hR => exact ih _ _ _ _ hR
      | userdata =>
        simp only [eachCap, hnext, hname, if_pos hcheck, hcall]
        exact ⟨h, trivial⟩
      | nil | function f | other =>
        simp only [eachCap, hnext, hname, if_pos hcheck, hcall]
        exact ih _ _ _ _ h
    · simp only [eachCap, hnext, hname, if_neg hcheck]
      exact ⟨h, trivial⟩

theorem withCaps_rel (hvisit : ∀ s s' r c, R s s' → Option.Rel R (visit s r c) (visit' s' r c)) (fuel : Nat) (lua : ℓ)
    {s : σ} {s' : σ'} (h : R s s') :
    R (withCaps L check visit fuel lua s).1 (withCaps L check visit' fuel lua s').1 ∧
      (withCaps L check visit fuel lua s).2 = (withCaps L check visit' fuel lua s').2 := by
  unfold withCaps
  split
  · exact ⟨h, rfl⟩
  · exact ⟨h, rfl⟩
  · exact eachCap_rel hvisit _ _ _ _ _ _ h

end

/-! ## Slots -/

section
variable {w : Word} {ℓ φ τ κ : Type} {L : CapsLua w ℓ φ τ κ} {X : Launch ℓ} {fuel fuel' : Nat} {lua : ℓ}
    {start slot₀ : ULong w}
  {check : List UInt8 → Bool} {works : Nat → Bool} {names : List (List UInt8)} {name : List UInt8}

/-- The `i`-th slot. -/
def slot (start : ULong w) (i : Nat) : ULong w := start + BitVec.ofNat _ (i * 2 ^ l4CapShift)

/-- Names with the slots from `start` on. -/
def slots (start : ULong w) (names : List (List UInt8)) : List (List UInt8 × ULong w) :=
  names.zipIdx.map fun r => (r.1, slot start r.2)

@[simp] theorem length_slots : (slots start names).length = names.length := by simp [slots]

theorem mem_slots : (name, slot₀) ∈ slots start names ↔ ∃ i, names[i]? = some name ∧ slot₀ = slot start i := by
  simp only [slots, List.mem_map, Prod.mk.injEq]
  constructor
  · rintro ⟨⟨r, i⟩, hmem, rfl, rfl⟩
    exact ⟨i, List.mem_zipIdx_iff_getElem?.mp hmem, rfl⟩
  · rintro ⟨i, hi, rfl⟩
    exact ⟨(name, i), List.mem_zipIdx_iff_getElem?.mpr hi, rfl, rfl⟩

theorem slots_append : slots start (names ++ [name]) = slots start names ++ [(name, slot start names.length)] := by
  simp [slots, List.zipIdx_append]

theorem slot_add (i : Nat) : slot start i + l4CapOffset w = slot start (i + 1) := by
  rw [slot, slot, l4CapOffset, BitVec.add_assoc, ← BitVec.ofNat_add, ← Nat.succ_mul]

theorem slot_inj {i j : Nat} : slot start i = slot start j ↔ i ≡ j [MOD slotCount w] := by
  have hwidth : 2 ^ (8 * w.bytes) = slotCount w * 2 ^ l4CapShift := by
    rw [slotCount, ← Nat.pow_add, Nat.sub_add_cancel (by cases w <;> decide)]
  have hcancel : i * 2 ^ l4CapShift ≡ j * 2 ^ l4CapShift [MOD slotCount w * 2 ^ l4CapShift] ↔ i ≡ j [MOD slotCount w] :=
    Nat.ModEq.mul_right_cancel_iff' (Nat.pow_pos (by decide)).ne'
  rw [← hcancel, ← hwidth, slot, slot, BitVec.add_right_inj, ← BitVec.toNat_inj, BitVec.toNat_ofNat, BitVec.toNat_ofNat]
  rfl

theorem pushInitialCaps_eq : (pushInitialCaps L X fuel lua start).1.1 = slots start
    (found L X.isValidName X.pushes fuel lua).1 ∧
    (pushInitialCaps L X fuel lua start).2 = (found L X.isValidName X.pushes fuel lua).2 := by
  have hrel : ((pushInitialCaps L X fuel lua start).1.1 = slots start (found L X.isValidName X.pushes fuel lua).1 ∧
      (pushInitialCaps L X fuel lua start).1.2 = slot start (found L X.isValidName X.pushes fuel lua).1.length) ∧
      (pushInitialCaps L X fuel lua start).2 = (found L X.isValidName X.pushes fuel lua).2 := by
    refine withCaps_rel (R := fun (s : List (List UInt8 × ULong w) × ULong w) names =>
      s.1 = slots start names ∧ s.2 = slot start names.length) ?_ fuel lua ⟨rfl, by simp [slot]⟩
    rintro ⟨recorded, next⟩ names r _ ⟨rfl, rfl⟩
    simp only [length_slots, collect]
    split
    · exact .some ⟨slots_append.symm, by rw [slot_add, List.length_append]; rfl⟩
    · exact .none
  exact ⟨hrel.1.1, hrel.2⟩

theorem mapInitialCaps_eq :
    (mapInitialCaps L X fuel lua start).1.1.map (fun m => (m.name, m.slot)) =
        slots start (found L (fun _ => true) X.maps fuel lua).1 ∧
      (mapInitialCaps L X fuel lua start).2 = (found L (fun _ => true) X.maps fuel lua).2 := by
  have hrel : ((mapInitialCaps L X fuel lua start).1.1.map (fun m => (m.name, m.slot)) =
        slots start (found L (fun _ => true) X.maps fuel lua).1 ∧
      (mapInitialCaps L X fuel lua start).1.2 = slot start (found L (fun _ => true) X.maps fuel lua).1.length) ∧
      (mapInitialCaps L X fuel lua start).2 = (found L (fun _ => true) X.maps fuel lua).2 := by
    refine withCaps_rel (R := fun (s : List (Mapping w) × ULong w) names =>
      s.1.map (fun m => (m.name, m.slot)) = slots start names ∧ s.2 = slot start names.length) ?_ fuel lua
      ⟨rfl, by simp [slot]⟩
    rintro ⟨mapped, next⟩ names r c ⟨hslots, rfl⟩
    have hlen : mapped.length = names.length := by
      have hlen' := congrArg List.length hslots
      rwa [List.length_map, length_slots] at hlen'
    simp only [hlen, collect]
    split
    · refine .some ⟨?_, by rw [slot_add, List.length_append]; rfl⟩
      rw [List.map_append, hslots, slots_append]
      rfl
    · exact .none
  exact ⟨hrel.1.1, hrel.2⟩

theorem mem_slots_slot {place : Nat} : (name, slot start place) ∈ slots start names ↔ FoundAt w names place name := by
  rw [mem_slots]
  constructor
  · rintro ⟨i, hi, heq⟩
    exact ⟨i, hi, (slot_inj.mp heq).symm⟩
  · rintro ⟨i, hi, hmod⟩
    exact ⟨i, hi, slot_inj.mpr hmod.symm⟩

theorem slots_subset (start : ULong w) {names' : List (List UInt8)} :
    (∀ e ∈ slots start names, e ∈ slots start names') ↔
      ∀ place name, names[place]? = some name → FoundAt w names' place name := by
  constructor
  · intro hsub place name hplace
    exact mem_slots_slot.mp (hsub _ (mem_slots.mpr ⟨place, hplace, rfl⟩))
  · rintro hfound ⟨name, slot₀⟩ he
    obtain ⟨place, hplace, rfl⟩ := mem_slots.mp he
    exact mem_slots_slot.mpr (hfound place name hplace)

theorem foundAt_iff {place : Nat} (hlen : names.length ≤ slotCount w) (hplace : place < slotCount w) :
    FoundAt w names place name ↔ names[place]? = some name := by
  constructor
  · rintro ⟨i, hi, hmod⟩
    obtain ⟨hlt, -⟩ := List.getElem?_eq_some_iff.mp hi
    rwa [← Nat.ModEq.eq_of_lt_of_lt hmod (by omega) hplace]
  · exact fun hname => ⟨place, hname, rfl⟩

theorem foundAt_places_iff {names' : List (List UInt8)} (hlen : names.length ≤ slotCount w)
    (hlen' : names'.length ≤ slotCount w) :
    (∀ place name, names'[place]? = some name → FoundAt w names place name) ↔ names' <+: names := by
  rw [List.prefix_iff_getElem?]
  constructor
  · intro hfound place hplace
    exact (foundAt_iff hlen (hplace.trans_le hlen')).mp (hfound place _ (List.getElem?_eq_getElem hplace))
  · intro hprefix place name hname
    obtain ⟨hplace, rfl⟩ := List.getElem?_eq_some_iff.mp hname
    exact ⟨place, hprefix place hplace, rfl⟩

/-- Where neither pass finds more capabilities than there are slots, the second one finds what the first one found, in
    the same order, as far as it comes. -/
theorem findsSame_iff (hlen : (found L X.isValidName X.pushes fuel lua).1.length ≤ slotCount w)
    (hlen' : ∀ lua, (found L (fun _ => true) X.maps fuel' lua).1.length ≤ slotCount w) :
    FindsSame L X fuel fuel' lua ↔ ∀ lua', (found L X.isValidName X.pushes fuel lua).2 = some lua' →
      (found L (fun _ => true) X.maps fuel' (X.between lua')).1 <+: (found L X.isValidName X.pushes fuel lua).1 ∧
      ((found L (fun _ => true) X.maps fuel' (X.between lua')).2 ≠ none →
        (found L (fun _ => true) X.maps fuel' (X.between lua')).1 = (found L X.isValidName X.pushes fuel lua).1) := by
  unfold FindsSame
  refine forall_congr' fun lua' => imp_congr_right fun _ => ?_
  rw [foundAt_places_iff hlen (hlen' _), foundAt_places_iff (hlen' _) hlen]
  refine and_congr_right fun hprefix => imp_congr_right fun _ => ⟨fun hback => ?_, fun heq => ?_⟩
  · exact hprefix.eq_of_length_le hback.length_le
  · rw [heq]

/-! ## Both passes -/

theorem slotsAgree_iff : SlotsAgree L X fuel fuel' lua start ↔ FindsSame L X fuel fuel' lua := by
  unfold SlotsAgree FindsSame
  rw [pushInitialCaps_eq.1, pushInitialCaps_eq.2]
  refine forall_congr' fun lua' => imp_congr_right fun _ => ?_
  obtain ⟨hslots, hends⟩ : (mapInitialCaps L X fuel' (X.between lua') start).1.1.map (fun m => (m.name, m.slot)) =
      slots start (found L (fun _ => true) X.maps fuel' (X.between lua')).1 ∧
    (mapInitialCaps L X fuel' (X.between lua') start).2 = (found L (fun _ => true) X.maps fuel' (X.between lua')).2 :=
    mapInitialCaps_eq
  rw [hends]
  refine and_congr ?_ (imp_congr_right fun _ => ?_)
  · rw [← slots_subset start, ← hslots, List.forall_mem_map]
  · rw [← slots_subset start, ← hslots]
    exact forall₂_congr fun e _ => List.mem_map.symm

end

/-- Names and capabilities meet in the slots if and only if the second pass finds the names where the first found
    them. -/
theorem slotsAgree_iff_findsSame {w : Word} {ℓ φ τ κ : Type} (L : CapsLua w ℓ φ τ κ) (X : Launch ℓ) (fuel fuel' : Nat)
    (lua : ℓ) (start : ULong w) : SlotsAgree L X fuel fuel' lua start ↔ FindsSame L X fuel fuel' lua :=
  slotsAgree_iff

/-- A table with a function under `a`, which gives a capability when it is called first and nil from then on, and a
    capability under `b`. The state counts the calls. -/
def onceLua : CapsLua .w32 Nat Unit Unit Bool where
  getCaps lua := some (lua, some ())
  next _ _
    | none => some (some (false, .function ()))
    | some false => some (some (true, .cap ⟨0x5000, 5, 0⟩))
    | some true => some none
  checkstring key := some (if key then [98] else [97], key)
  call lua _ _ := some (lua + 1, if lua = 0 then .cap ⟨0x4000, 5, 0⟩ else .nil)

def allWorks : Launch Nat := ⟨fun _ => true, fun _ => true, fun _ => true, id⟩

/-- The slot that was recorded under `a` gets the capability of `b`. -/
theorem slots_disagree :
    (pushInitialCaps onceLua allWorks 5 0 0xd000).1.1 = [([97], 0xd000), ([98], 0xe000)] ∧
      ((mapInitialCaps onceLua allWorks 5 1 0xd000).1.1.map fun m => (m.name, m.slot)) = [([98], 0xd000)] ∧
      ¬SlotsAgree onceLua allWorks 5 5 0 0xd000 := by
  refine ⟨by decide, by decide, fun hagree => ?_⟩
  have hmem := (hagree 1 rfl).1 ⟨[98], 0xd000, ⟨0x5000, 5, 0⟩⟩ (List.mem_singleton_self _)
  revert hmem
  decide

/-! ## Tables without functions -/

section
variable {w : Word} {ℓ φ τ κ : Type} {L : CapsLua w ℓ φ τ κ} {check : List UInt8 → Bool} {works works' : Nat → Bool}
    {tab : τ}

/-- Nothing that the loops do changes the table, and it has no functions. -/
structure Plain (L : CapsLua w ℓ φ τ κ) (tab : τ) : Prop where
  next : ∀ lua lua' key, L.next lua tab key = L.next lua' tab key
  noFunction : ∀ lua key key' f, L.next lua tab key ≠ some (some (key', .function f))

theorem callFunctions_of_not_function {fuel : Nat} {lua : ℓ} {v : LuaValue w φ} (hv : ∀ f, v ≠ .function f) :
    callFunctions L tab (fuel + 1) lua v = some (lua, v) := by
  cases v with
  | function f => exact absurd rfl (hv f)
  | nil | cap | userdata | other => rfl

/-- What the loop does with an entry that is no function. -/
theorem eachCap_entry {σ : Type} {visit : σ → List UInt8 → LuaCap w → Option σ} {fuel : Nat} {lua : ℓ} {key : Option κ}
    {key' key'' : κ} {v : LuaValue w φ} {r : List UInt8} (hnext : L.next lua tab key = some (some (key', v)))
    (hname : L.checkstring key' = some (r, key'')) (hcheck : check r = true) (hv : ∀ f, v ≠ .function f) (s : σ) :
    eachCap L check visit tab (fuel + 1 + 1) lua key s =
      match v with
      | .cap c =>
        match visit s r c with
        | none => (s, none)
        | some s => eachCap L check visit tab (fuel + 1) lua (some key'') s
      | .userdata => (s, none)
      | _ => eachCap L check visit tab (fuel + 1) lua (some key'') s := by
  rw [eachCap]
  simp only [hnext, hname, if_pos hcheck, callFunctions_of_not_function hv]
  cases v with
  | cap c => cases visit s r c <;> rfl
  | function f => exact absurd rfl (hv f)
  | nil | userdata | other => rfl

/-- What has been found stays. -/
theorem prefix_eachCap (fuel : Nat) (lua : ℓ) (key : Option κ) (names : List (List UInt8)) :
    names <+: (eachCap L check (collect works) tab fuel lua key names).1 := by
  have hvisit : ∀ (names' names'' : List (List UInt8)) (r : List UInt8) (c : LuaCap w), names' = names'' ∧
    names <+: names' →
      Option.Rel (fun names' names'' => names' = names'' ∧ names <+: names') (collect works names' r c)
        (collect works names'' r c) := by
    rintro names' names'' r c ⟨rfl, hfound⟩
    unfold collect
    split
    · exact .some ⟨rfl, hfound.trans (List.prefix_append _ _)⟩
    · exact .none
  exact (eachCap_rel hvisit tab fuel lua key names names ⟨rfl, List.prefix_rfl⟩).1.2

/-- A second traversal finds what a first one has found that came to its end. -/
theorem Plain.eachCap (h : Plain L tab) (fuel' : Nat) : ∀ (fuel : Nat) (lua lua' : ℓ) (key : Option κ)
    (names : List (List UInt8)),
    (Am.eachCap L check (collect works) tab fuel lua key names).2 ≠ none →
      (Am.eachCap L (fun _ => true) (collect works') tab fuel' lua' key names).1 <+:
          (Am.eachCap L check (collect works) tab fuel lua key names).1 ∧
        ((Am.eachCap L (fun _ => true) (collect works') tab fuel' lua' key names).2 ≠ none →
          (Am.eachCap L (fun _ => true) (collect works') tab fuel' lua' key names).1 =
            (Am.eachCap L check (collect works) tab fuel lua key names).1) := by
  induction fuel' with
  | zero => exact fun fuel lua lua' key names _ => ⟨prefix_eachCap fuel lua key names, fun hne => absurd rfl hne⟩
  | succ fuel' ih =>
    intro fuel lua lua' key names hended
    have hfirst : names <+: (Am.eachCap L check (collect works) tab fuel lua key names).1 :=
      prefix_eachCap fuel lua key names
    obtain _ | fuel := fuel
    · exact absurd rfl hended
    have hsame := h.next lua' lua key
    -- The table does not change, so from the same key both traversals come to the same entry.
    rcases hnext : L.next lua tab key with _ | _ | ⟨key', v⟩
    · simp [Am.eachCap, hnext] at hended
    · simp [Am.eachCap, hsame, hnext]
    rcases hname : L.checkstring key' with _ | ⟨r, key''⟩
    · simp [Am.eachCap, hnext, hname] at hended
    by_cases hcheck : check r = true
    · have hv : ∀ f, v ≠ .function f := fun f hf => h.noFunction lua key key' f (hf ▸ hnext)
      obtain _ | fuel := fuel
      · simp [Am.eachCap, hnext, hname, hcheck, callFunctions] at hended
      obtain _ | fuel' := fuel'
      · simpa [Am.eachCap, hsame, hnext, hname, callFunctions] using hfirst
      have hentry : Am.eachCap L check (collect works) tab (fuel + 1 + 1) lua key names = _ :=
        eachCap_entry hnext hname hcheck hv names
      have hentry' : Am.eachCap L (fun _ => true) (collect works') tab (fuel' + 1 + 1) lua' key names = _ :=
        eachCap_entry (hsame.trans hnext) hname rfl hv names
      rw [hentry] at hended hfirst ⊢
      rw [hentry']
      cases v with
      | cap c =>
        by_cases hworks : works names.length = true
        · simp only [collect, if_pos hworks] at hended hfirst ⊢
          by_cases hworks' : works' names.length = true
          · simp only [if_pos hworks']
            exact ih _ _ _ _ _ hended
          · -- The second traversal fails here and has found no more than the first.
            simp only [if_neg hworks']
            exact ⟨hfirst, fun hne => absurd rfl hne⟩
        · simp only [collect, if_neg hworks] at hended
          exact absurd rfl hended
      | function f => exact absurd rfl (hv f)
      | userdata => exact absurd rfl hended
      | nil | other => exact ih _ _ _ _ _ hended
    · simp [Am.eachCap, hnext, hname, hcheck] at hended

/-- Names and capabilities meet in the slots of every table without functions that both passes get. -/
theorem Plain.slotsAgree {X : Launch ℓ} {fuel fuel' : Nat} {lua : ℓ} {start : ULong w} (h : Plain L tab)
    (hget : ∀ lua, L.getCaps lua = some (lua, some tab)) : SlotsAgree L X fuel fuel' lua start := by
  rw [slotsAgree_iff]
  intro lua' hended
  have hfound {check : List UInt8 → Bool} {works : Nat → Bool} {fuel : Nat} {lua : ℓ} :
      found L check works fuel lua = Am.eachCap L check (collect works) tab fuel lua none [] := by
    simp only [found, withCaps, hget]
  simp only [hfound] at hended ⊢
  obtain ⟨hfound', heq⟩ := h.eachCap fuel' fuel lua (X.between lua') none []
    (by rw [hended]; exact Option.some_ne_none _)
  refine ⟨fun place name hname => ⟨place, ?_, rfl⟩, fun hne place name hname => ⟨place, ?_, rfl⟩⟩
  · obtain ⟨hlt, -⟩ := List.getElem?_eq_some_iff.mp hname
    rw [List.prefix_iff_getElem?.mp hfound' place hlt, ← hname, List.getElem?_eq_getElem hlt]
  · rw [heq hne]
    exact hname

end

end Am

end Dom0
