import Dom0.Ned.ClassNames
import Dom0.Theorems.LuaCaps

/-! # Names of classes find their types

`get_cap_class` of the script of Ned gets the table of a type by the name of its class. The name that it makes of the
parts of a class name is made of these parts only, and tells them apart. -/

namespace Dom0
open LuaFun

theorem toList_mangleClass (n : String) : (mangleClass n).toList =
    'N' :: (LengthPrefixed.encode (classParts n) ++ ['E']) := by
  have hloop (ps : List (List Char)) (m : List Char) :
      ps.foldl (fun m i => m ++ (toString i.length).toList ++ i) m = m ++ LengthPrefixed.encode ps := by
    induction ps generalizing m with
    | nil => exact (List.append_nil m).symm
    | cons p ps ih =>
      rw [List.foldl_cons, ih, LengthPrefixed.encode, LengthPrefixed.encode, List.flatMap_cons, Nat.toString_eq_repr,
        Nat.toList_repr, List.append_assoc, List.append_assoc, List.append_assoc]
  rw [mangleClass, String.toList_ofList, hloop]
  rfl

theorem mangleClass_namespace : mangleClass "L4Re::Namespace" = "N4L4Re9NamespaceE" := by decide

theorem mangleClass_inj {n n' : String} (h : PlainName n) (h' : PlainName n') :
    mangleClass n = mangleClass n' ↔ classParts n = classParts n' := by
  rw [← String.toList_inj, toList_mangleClass, toList_mangleClass]
  constructor
  · intro heq
    exact LengthPrefixed.encode_injective h h' (List.cons.inj heq).2
  · intro heq
    rw [heq]

theorem mangleClass_ne_void (n : String) : mangleClass n ≠ "void" := by
  intro heq
  have hlist := (toList_mangleClass n).symm.trans (congrArg String.toList heq)
  cases hlist

/-! ## The table of types -/

/-- A type is found under its name, and under its protocol if it has one. -/
def CapType.Under (m : CapType) (key : LuaVal) : Prop := key = .string m.name ∨ m.proto ≠ 0 ∧ key = .number m.proto

instance (m : CapType) (key : LuaVal) : Decidable (m.Under key) := inferInstanceAs (Decidable (_ ∨ _))

/-- The type registered last under a key, with its place among all types. -/
def lastUnder (types : List CapType) (key : LuaVal) : Option (CapType × Nat) :=
  types.zipIdx.reverse.find? fun m => m.1.Under key

theorem lastUnder_append (types : List CapType) (m : CapType) (key : LuaVal) :
    lastUnder (types ++ [m]) key = if m.Under key then some (m, types.length) else lastUnder types key := by
  rw [lastUnder, List.zipIdx_append, List.reverse_append, List.zipIdx_singleton, List.reverse_singleton,
    List.singleton_append, List.find?_cons, Nat.zero_add]
  split
  · next h => rw [if_pos (of_decide_eq_true h)]
  · next h => rw [if_neg (of_decide_eq_false h), lastUnder]

/-- The table that is made when the type at this place is registered: four are there before the first one, and each type
    brings its table and a metatable. -/
def tableAt (place : Nat) : Nat := 4 + 2 * place

/-- What is found is the table that was made for this type, with its methods, or there is no type. -/
def Names (tables : List LuaTable) (v : LuaVal) : Option (CapType × Nat) → Prop
  | none => v = .nil
  | some (m, place) => v = .table (tableAt place) ∧ tables[tableAt place]? = some m.table

/-- Every key of the table of types but that of the table for all of them stands for the type registered last. -/
structure Registered (types : List CapType) (tables : List LuaTable) : Prop where
  length : tables.length = tableAt types.length
  names : ∃ c, tables[2]? = some c ∧ ∀ key, key ≠ .string "void" → Names tables (c.raw key) (lastUnder types key)

section
variable {tables : List LuaTable} {types : List CapType} {m : CapType} {metatable : LuaTable} {t : Nat}

theorem length_registered : (Cap.registered tables m metatable).length = tables.length + 2 := by
  rw [Cap.registered, List.length_modify]
  split
  · simp
  · simp

theorem getElem?_registered (ht : t ≠ 2) :
    (Cap.registered tables m metatable)[t]? = (tables ++ [m.table, metatable])[t]? := by
  rw [Cap.registered, List.getElem?_modify_ne _ _ ht.symm]
  split
  · rfl
  · exact List.getElem?_modify_ne _ _ ht.symm

/-- The table of types when a type is registered. -/
theorem getElem?_registered_types {types : LuaTable} (htypes : tables[2]? = some types) (m : CapType)
    (metatable : LuaTable) :
    ∃ types', (Cap.registered tables m metatable)[2]? = some types' ∧
      ∀ key, types'.raw key = if m.Under key then .table tables.length else types.raw key := by
  have hnew (new : List LuaTable) : (tables ++ new)[2]? = some types := by
    rw [List.getElem?_append_left (List.getElem?_eq_some_iff.mp htypes).1, htypes]
  rw [Cap.registered]
  by_cases hproto : m.proto = 0
  · refine ⟨setRaw (.string m.name) (.table tables.length) types, ?_, fun key => ?_⟩
    · rw [if_pos hproto, List.getElem?_modify_eq, hnew]
      rfl
    · simp only [setRaw, CapType.Under, hproto, ne_eq, not_true_eq_false, false_and, or_false]
  · refine ⟨setRaw (.string m.name) (.table tables.length) (setRaw (.number m.proto) (.table tables.length) types), ?_,
      fun key => ?_⟩
    · rw [if_neg hproto, List.getElem?_modify_eq, List.getElem?_modify_eq, hnew]
      rfl
    · simp only [setRaw, CapType.Under, ne_eq, hproto, not_false_eq_true, true_and]
      by_cases hname : key = .string m.name
      · rw [if_pos hname, if_pos (Or.inl hname)]
      · simp only [hname, false_or, if_false]

theorem Registered.registered (h : Registered types tables) (m : CapType) (metatable : LuaTable) :
    Registered (types ++ [m]) (Cap.registered tables m metatable) := by
  obtain ⟨table, htable, hnames⟩ := h.names
  obtain ⟨table', htable', hraw⟩ := getElem?_registered_types htable m metatable
  have htwo (place : Nat) : tableAt place ≠ 2 := by
    rw [tableAt]
    omega
  refine ⟨?_, table', htable', fun key hkey => ?_⟩
  · rw [length_registered, h.length, List.length_append, List.length_singleton, tableAt, tableAt]
    omega
  · rw [hraw, lastUnder_append]
    by_cases hunder : m.Under key
    · -- The new table is the next one.
      rw [if_pos hunder, if_pos hunder, h.length]
      refine ⟨rfl, ?_⟩
      rw [getElem?_registered (htwo _), ← h.length, List.getElem?_append_right (Nat.le_refl _), Nat.sub_self]
      rfl
    · rw [if_neg hunder, if_neg hunder]
      have hbefore := hnames key hkey
      cases hlast : lastUnder types key with
      | none =>
        rw [hlast] at hbefore
        exact hbefore
      | some found =>
        rw [hlast] at hbefore
        obtain ⟨hv, hfound⟩ := hbefore
        refine ⟨hv, ?_⟩
        rw [getElem?_registered (htwo _), List.getElem?_append_left (List.getElem?_eq_some_iff.mp hfound).1, hfound]

theorem registered_initTables (castFunction : LuaVal) (c : LuaTable) :
    Registered [] (Cap.initTables castFunction (setRaw (.string "void") (.table 3) .empty) c) :=
  ⟨rfl, _, rfl, fun _ hkey => if_neg hkey⟩

end

/-! ## Lookups of the script -/

namespace Cap
variable {κ : Type} {tables : List LuaTable} {types : List CapType}

theorem capType_eq (h : ClassTables tables) {c : LuaTable} (hc : tables[2]? = some c) (key : LuaVal) :
    capType key ⟨[], tables, []⟩ = .ok (c.raw key, (⟨[], tables, []⟩ : LuaState (CapObject κ))) := by
  have hfinds : Finds tables (PlainCaps.start tables : PlainCaps κ) := by simpa using finds_start (κ := κ) h []
  obtain ⟨c', hc', hindex, -, -⟩ := h.types
  obtain rfl : c = c' := Option.some.inj (hc.symm.trans hc')
  have hfield : field tables key maxTagLoop 2 = .ok (c.raw key) := field_of_index_none hc hindex
  simp [capType, getCapCastTable_eq hfinds, hfield]

/-- However many types are registered in whatever order: a class name gets the table made for the type registered last
    for a class with these parts, with the methods of this type, a number that of the type registered last for this
    protocol, and nothing is got where there is no such type. -/
theorem getCapClass_registered (castFunction : LuaVal) (methods : List (String × LuaVal)) (types : List NamedType) :
    ∃ lua : LuaState (CapObject κ), startLua castFunction methods (types.map NamedType.type) = .ok ((), lua) ∧
      (∀ n, PlainName n → ∃ v, getCapClass (.string n) lua = .ok (v, lua) ∧ Names lua.tables v
        ((types.zipIdx.reverse.find? fun m => classParts m.1.className = classParts n).map
        (Prod.map NamedType.type id))) ∧
      ∀ p, ∃ v, getCapClass (.number p) lua = .ok (v, lua) ∧ Names lua.tables v
        ((types.zipIdx.reverse.find? fun m => m.1.type.proto ≠ 0 ∧ m.1.type.proto = p).map
        (Prod.map NamedType.type id)) := by
  have hnames : ∀ m ∈ types.map NamedType.type, m.name ≠ "void" := by
    intro m hm
    obtain ⟨named, -, rfl⟩ := List.mem_map.mp hm
    rw [named.name]
    exact mangleClass_ne_void named.className
  obtain ⟨tables, hstart, htables, -, c, hc, hall⟩ :=
    startLua_keeps (κ := κ) (P := Registered) castFunction methods hnames
    (registered_initTables castFunction) fun _ m _ metatable _ h => h.registered m metatable
  have hlast (key : LuaVal) (q : NamedType × Nat → Bool)
    (hq : ∀ m : NamedType × Nat, q m = decide (m.1.type.Under key)) :
      lastUnder (types.map NamedType.type) key = (types.zipIdx.reverse.find? q).map (Prod.map NamedType.type id) := by
    rw [lastUnder, List.zipIdx_map, ← List.map_reverse, List.find?_map, funext hq]
    rfl
  refine ⟨⟨[], tables, []⟩, hstart, fun n hn => ?_, fun p => ?_⟩
  · refine ⟨_, capType_eq htables hc _, ?_⟩
    rw [← hlast (.string (mangleClass n))]
    · exact hall _ fun heq => mangleClass_ne_void n (LuaVal.string.inj heq)
    · intro m
      rw [decide_eq_decide, ← mangleClass_inj m.1.plain hn, ← m.1.name, CapType.Under, LuaVal.string.injEq, eq_comm]
      simp
  · refine ⟨_, capType_eq htables hc _, ?_⟩
    rw [← hlast (.number p)]
    · exact hall _ (by simp)
    · intro m
      rw [decide_eq_decide, CapType.Under, LuaVal.number.injEq, eq_comm (a := p)]
      simp

def factoryType : NamedType := ⟨"L4::Factory", ⟨"N2L47FactoryE", -15, []⟩, by decide, by decide⟩

/-- The type of name spaces, with one method. -/
def namespaceType (method : LuaVal) : NamedType :=
  ⟨"L4Re::Namespace", ⟨"N4L4Re9NamespaceE", 0x4001, [("query", method)]⟩, by decide, mangleClass_namespace.symm⟩

/-- Of two types for name spaces the script finds the second one. -/
theorem getCapClass_registered_namespace : ∃ lua : LuaState (CapObject Nat),
    startLua .nil [] [(namespaceType .nil).type, factoryType.type, (namespaceType (.number 1)).type] = .ok ((), lua) ∧
      getCapClass (.string "L4Re::Namespace") lua = .ok (.table 8, lua) ∧
      ∃ table, lua.tables[8]? = some table ∧ table.raw (.string "query") = .number 1 ∧
        table.raw (.string "_CLASS_NAME") = .string "N4L4Re9NamespaceE" ∧ table.index = some 3 := by
  obtain ⟨lua, hstart, hclass, -⟩ :=
    getCapClass_registered (κ := Nat) .nil [] [namespaceType .nil, factoryType, namespaceType (.number 1)]
  obtain ⟨v, hv, rfl, htable⟩ := hclass "L4Re::Namespace" (by decide)
  exact ⟨lua, hstart, hv, _, htable, rfl, rfl, rfl⟩

end Cap

end Dom0
