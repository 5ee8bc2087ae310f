import Dom0.Lib.Runs
import Dom0.Ned.LuaCap

/-! Capabilities of Lua are values. Whatever Lua code calls, in whatever order, a capability keeps the rights that it
was made with, it stands for a capability that the kernel gave, and all its copies have one type, which does not change
once it is known. -/

namespace Dom0
open LuaFun

/-! ## What capabilities are meant to be -/

structure PlainCap (κ : Type) where
  c : κ
  rights : BitVec 16
  type : Nat

/-- The tables of the types, all capabilities that were made, and for each family of copies its type where it is
    known. -/
structure PlainCaps (κ : Type) where
  classes : List LuaTable
  caps : List (PlainCap κ)
  types : List (Option Nat)

namespace PlainCaps
variable {κ : Type}

def start (classes : List LuaTable) : PlainCaps κ := ⟨classes, [], []⟩

/-- A field of the table of a type, or of the one for all capabilities. -/
def method (a : PlainCaps κ) (t : Nat) (key : LuaVal) : LuaVal := (field a.classes key maxTagLoop t).toOption.getD .nil

/-- The type that is registered under a name or a protocol. -/
def classOf (a : PlainCaps κ) (key : LuaVal) : Option Nat := (a.method 2 key).table?

def cap? (a : PlainCaps κ) : Option LuaVal → Option (Nat × PlainCap κ)
  | some (.userdata v) => a.caps[v]?.map (v, ·)
  | _ => none

/-- A copy with other rights; where they are the same, the capability itself. -/
def withRights (a : PlainCaps κ) (v : Nat × PlainCap κ) (r : BitVec 32) : List LuaVal × PlainCaps κ :=
  if v.2.rights.setWidth 32 = r then ([.userdata v.1], a)
  else
    let rights := (r.setWidth 8 ||| l4FpageRo).setWidth 16
    ([.userdata a.caps.length], { a with caps := a.caps ++ [{ v.2 with rights }] })

/-- The first capability of a new family. -/
def newCap (a : PlainCaps κ) (c : κ) (rights : BitVec 16) (type : Option Nat) : List LuaVal × PlainCaps κ :=
  ([.userdata a.caps.length], { a with caps := a.caps ++ [⟨c, rights, a.types.length⟩], types := a.types ++ [type] })

/-- A method of a capability, whose type is found out where it is not known. -/
def index (a : PlainCaps κ) (p : PlainCap κ) (key : LuaVal) (name : Option String) : List LuaVal × PlainCaps κ :=
  if a.method 3 key ≠ .nil then ([a.method 3 key], a)
  else match a.types[p.type]?.join, name.bind fun name => a.classOf (.string name) with
    | some t, _ => ([a.method t key], a)
    | none, some t => ([a.method t key], { a with types := a.types.set p.type (some t) })
    | none, none => ([], a)

def cast (a : PlainCaps κ) (p : PlainCap κ) (key : LuaVal) : List LuaVal × PlainCaps κ :=
  match a.classOf key with
  | some t => a.newCap p.c p.rights (some t)
  | none => ([.nil], a)

def orError {α : Type} : Option α → Except LuaFault α
  | some x => .ok x
  | none => .error .error

def call (E : CapsEnv κ) (a : PlainCaps κ) : CapCall κ → Except LuaFault (List LuaVal × PlainCaps κ)
  | .isValid args => (orError (a.cap? args[0]?)).map fun v => ([.boolean (E.isValid v.2.c)], a)
  | .mode args =>
    match (args[1]? : Option LuaVal) with
    | none | some .nil => (orError (a.cap? args[0]?)).map fun v => ([.number (v.2.rights &&& 0xf).toNat], a)
    | some arg => (Cap.argumentRights E arg).bind fun r => (orError (a.cap? args[0]?)).map fun v => a.withRights v r
  | .full args => (orError (a.cap? args[0]?)).map fun v => a.withRights v 0xef
  | .index args name => (orError (a.cap? args[0]?)).map fun v => a.index v.2 (args[1]?.getD .nil) name
  | .cast args called =>
    if 2 < args.length then .error .error
    else
      let arg := match (args[1]? : Option LuaVal) with
        | some (.function _) => some called
        | arg => arg
      (orError (a.cap? arg)).map fun v => a.cast v.2 (args[0]?.getD .nil)
  | .create args obj r =>
    (orError (a.cap? args[0]?)).bind fun _ => (orError (args[1]?.bind E.number?)).bind fun objt =>
      (orError (if r < 0 then none else obj)).map fun obj =>
        a.newCap obj (l4FpageRo.setWidth 16) (a.classOf (.number (BitVec.ofInt 32 objt).toInt))
  | .lookup ns rights obj r =>
    (orError (a.cap? (some ns))).bind fun _ => (orError obj).bind fun obj =>
      if r = -l4Enoent then .ok ([.nil], a)
      else if r < 0 then .error .error
      else .ok (a.newCap obj ((BitVec.ofInt 8 ((E.number? rights).getD 0) ||| l4FpageRo).setWidth 16) none)
  | .registerCap i proto => .ok (a.newCap i (l4CapFpageRws.setWidth 16 ||| l4FpageRo.setWidth 16)
      (a.classOf (.number proto)))
  | .setField t key v => .ok ([], { a with classes := a.classes.modify t (setRaw key v) })

end PlainCaps

/-! ## The tables of the types -/

section
variable {κ : Type} {classes more : List LuaTable} {table : LuaTable} {t n : Nat} {key v : LuaVal}

theorem field_of_raw (h : classes[t]? = some table) (hraw : table.raw key = v) (hv : v ≠ .nil) :
    field classes key (n + 1) t = .ok v := by
  subst hraw
  rw [field, h]
  simp only
  split
  · next hnil _ => exact absurd hnil hv
  · rfl

theorem field_of_index_none (h : classes[t]? = some table) (hindex : table.index = none) :
    field classes key (n + 1) t = .ok (table.raw key) := by
  rw [field, h]
  simp only [hindex]
  cases table.raw key <;> rfl

theorem field_of_index {u : Nat} (h : classes[t]? = some table) (hraw : table.raw key = .nil)
    (hindex : table.index = some u) :
    field classes key (n + 1) t = field classes key n u := by
  rw [field, h]
  simp only [hraw, hindex]

/-- The table of a type: what it does not have itself is looked up in the one for all capabilities. -/
def IsClass (classes : List LuaTable) (t : Nat) : Prop :=
  2 < t ∧ ∃ table, classes[t]? = some table ∧ (table.index = none ∨ table.index = some 3)

/-- The globals, `L4`, the types by their names and protocols, and the table for all capabilities. -/
structure ClassTables (classes : List LuaTable) : Prop where
  globals : ∃ g, classes[0]? = some g ∧ g.raw (.string luaPackage) = .table 1
  package : ∃ p, classes[1]? = some p ∧ p.raw (.string castTable) = .table 2
  types : ∃ c, classes[2]? = some c ∧ c.index = none ∧ c.raw (.string "void") = .table 3 ∧
    ∀ key, c.raw key = .nil ∨ ∃ t, c.raw key = .table t ∧ IsClass classes t
  void : ∃ v, classes[3]? = some v ∧ v.index = none

/-- What is looked up in the tables is what is meant to be there. -/
structure Finds (tables : List LuaTable) (a : PlainCaps κ) : Prop where
  globals : field tables (.string luaPackage) maxTagLoop 0 = .ok (.table 1)
  package : field tables (.string castTable) maxTagLoop 1 = .ok (.table 2)
  types : ∀ key, field tables key maxTagLoop 2 = .ok (a.method 2 key)
  void : a.method 2 (.string "void") = .table 3
  known : ∀ key, a.method 2 key = .nil ∨ ∃ t, a.method 2 key = .table t ∧ IsClass a.classes t
  method : ∀ t key, IsClass a.classes t → field tables key maxTagLoop t = .ok (a.method t key)

theorem IsClass.exists_field (h : IsClass classes t) (key : LuaVal)
    (hvoid : ∃ v, classes[3]? = some v ∧ v.index = none) :
    ∃ v, field classes key maxTagLoop t = .ok v := by
  obtain ⟨-, table, htable, hindex⟩ := h
  obtain ⟨void, hvoid, hnone⟩ := hvoid
  rcases hindex with hindex | hindex
  · exact ⟨_, field_of_index_none htable hindex⟩
  · by_cases hraw : table.raw key = .nil
    · exact ⟨_, (field_of_index htable hraw hindex).trans (field_of_index_none hvoid hnone)⟩
    · exact ⟨_, field_of_raw htable rfl hraw⟩

theorem PlainCaps.method_of_field {a : PlainCaps κ} (h : field a.classes key maxTagLoop t = .ok v) :
    a.method t key = v := by
  rw [PlainCaps.method, h]
  rfl

theorem ClassTables.finds {a : PlainCaps κ} (h : ClassTables a.classes) : Finds (a.classes ++ more) a := by
  obtain ⟨g, hg, hpackage⟩ := h.globals
  obtain ⟨p, hp, hcast⟩ := h.package
  obtain ⟨c, hc, hindex, hvoid, hall⟩ := h.types
  have htypes : ∀ key, field a.classes key maxTagLoop 2 = .ok (c.raw key) := fun key => field_of_index_none hc hindex
  have hmethod : ∀ key, a.method 2 key = c.raw key := fun key => PlainCaps.method_of_field (htypes key)
  refine ⟨field_append (field_of_raw hg hpackage nofun), field_append (field_of_raw hp hcast nofun), fun key => ?_, ?_,
    fun key => ?_, fun t key hclass => ?_⟩
  · rw [hmethod]
    exact field_append (htypes key)
  · rw [hmethod, hvoid]
  · rw [hmethod]
    exact hall key
  · obtain ⟨v, hv⟩ := hclass.exists_field key h.void
    rw [PlainCaps.method_of_field hv]
    exact field_append hv

theorem IsClass.append (h : IsClass classes t) (more : List LuaTable) : IsClass (classes ++ more) t := by
  obtain ⟨ht, table, htable, hindex⟩ := h
  exact ⟨ht, table, by rw [List.getElem?_append_left (List.getElem?_eq_some_iff.mp htable).1, htable], hindex⟩

theorem ClassTables.append (h : ClassTables classes) (more : List LuaTable) : ClassTables (classes ++ more) := by
  have hold {t : Nat} {table : LuaTable} (ht : classes[t]? = some table) : (classes ++ more)[t]? = some table := by
    rw [List.getElem?_append_left (List.getElem?_eq_some_iff.mp ht).1, ht]
  obtain ⟨g, hg, hpackage⟩ := h.globals
  obtain ⟨p, hp, hcast⟩ := h.package
  obtain ⟨types, htypes, hindex, hvoid, hall⟩ := h.types
  obtain ⟨void, hv, hnone⟩ := h.void
  refine ⟨⟨g, hold hg, hpackage⟩, ⟨p, hold hp, hcast⟩, ⟨types, hold htypes, hindex, hvoid, fun key => ?_⟩,
    ⟨void, hold hv, hnone⟩⟩
  rcases hall key with hnil | ⟨t, ht, hclass⟩
  · exact Or.inl hnil
  · exact Or.inr ⟨t, ht, hclass.append more⟩

/-- A type is registered under one more name. -/
theorem ClassTables.setType (h : ClassTables classes) (ht : IsClass classes t) (hkey : key ≠ .string "void") :
    ClassTables (classes.modify 2 (setRaw key (.table t))) ∧ IsClass (classes.modify 2 (setRaw key (.table t))) t := by
  have hother (i : Nat) (hi : 2 ≠ i) : (classes.modify 2 (setRaw key (.table t)))[i]? = classes[i]? :=
    List.getElem?_modify_ne _ _ hi
  have hclass {u : Nat} (hu : IsClass classes u) : IsClass (classes.modify 2 (setRaw key (.table t))) u := by
    obtain ⟨hpos, table, htable, hindex⟩ := hu
    exact ⟨hpos, table, by rw [hother u (Nat.ne_of_lt hpos), htable], hindex⟩
  obtain ⟨types, htypes, hindex, hvoid, hall⟩ := h.types
  refine ⟨⟨?_, ?_, ⟨setRaw key (.table t) types, ?_, hindex, ?_, fun k => ?_⟩, ?_⟩, hclass ht⟩
  · rw [hother 0 (by decide)]
    exact h.globals
  · rw [hother 1 (by decide)]
    exact h.package
  · rw [List.getElem?_modify_eq, htypes]
    rfl
  · exact (if_neg hkey.symm).trans hvoid
  · by_cases hk : k = key
    · exact Or.inr ⟨t, if_pos hk, hclass ht⟩
    · rcases hall k with hnil | ⟨u, hu, hcl⟩
      · exact Or.inl ((if_neg hk).trans hnil)
      · exact Or.inr ⟨u, (if_neg hk).trans hu, hclass hcl⟩
  · rw [hother 3 (by decide)]
    exact h.void

end

/-! ## Functions on the stack -/

/-- The environment of a family of copies. -/
def envTable (type : Option Nat) : LuaTable :=
  ⟨fun key => if key = .number 0 then type.elim .nil .table else .nil, none⟩

theorem setRaw_envTable (t : Nat) : setRaw (.number 0) (.table t) (envTable none) = envTable (some t) := by
  rw [setRaw, envTable, envTable]
  congr 1
  funext k
  by_cases hk : k = .number 0 <;> simp [hk]

/-- The userdata of a capability, where `n` tables are there before the first environment. -/
def PlainCap.userdata {κ : Type} (n : Nat) (p : PlainCap κ) : LuaUserdata (CapObject κ) :=
  ⟨⟨p.c, p.rights, 0⟩, n + p.type⟩

namespace Cap
attribute [local simp] checkCap callFun

variable {κ : Type} {E : CapsEnv κ} {a : PlainCaps κ} {s : LuaState (CapObject κ)} {stack base rest : List LuaVal}
  {tables : List LuaTable} {userdata : List (LuaUserdata (CapObject κ))} {key v : LuaVal} {n : Nat}
  {d : LuaUserdata (CapObject κ)}

theorem getCapCastTable_eq (h : Finds tables a) :
    getCapCastTable ⟨stack, tables, userdata⟩ = .ok ((), ⟨.table 2 :: stack, tables, userdata⟩) := by
  simp [getCapCastTable, h.globals, h.package]

theorem getMethodTable_eq (h : Finds tables a) (typ : String) :
    getMethodTable typ ⟨stack, tables, userdata⟩ = .ok ((), ⟨a.method 2 (.string typ) :: stack, tables, userdata⟩) := by
  simp [getMethodTable, getCapCastTable_eq h, h.types]

theorem pushVoidCap_eq : pushVoidCap E ⟨stack, tables, userdata⟩ =
    .ok (userdata.length, ⟨.userdata userdata.length :: stack, tables ++ [envTable none],
      userdata ++ [⟨.new E.invalid, tables.length⟩]⟩) := by
  simp [pushVoidCap, checkudataOf, modify_append_cons, envTable, LuaTable.empty]

/-- The key at the top is replaced by a capability of the type that it stands for, or popped. -/
theorem pushNewCap_eq (h : Finds tables a) (voidCap : Bool) : pushNewCap E voidCap ⟨key :: base, tables, userdata⟩ =
    if a.classOf key = none ∧ voidCap = false then .ok (none, ⟨base, tables, userdata⟩)
    else .ok (some userdata.length, ⟨.userdata userdata.length :: base, tables ++ [envTable (a.classOf key)],
      userdata ++ [⟨.new E.invalid, tables.length⟩]⟩) := by
  rcases h.known key with hnil | ⟨t, ht, -⟩
  · have hclass : a.classOf key = none := by rw [PlainCaps.classOf, hnil]; rfl
    cases voidCap with
    | false => simp [pushNewCap, getCapCastTable_eq h, h.types, hnil, hclass, eraseIdx_append_cons]
    | true =>
      simp [pushNewCap, getCapCastTable_eq h, h.types, hnil, hclass, eraseIdx_append_cons, pushVoidCap_eq]
  · have hclass : a.classOf key = some t := by rw [PlainCaps.classOf, ht]; rfl
    simp [pushNewCap, getCapCastTable_eq h, h.types, ht, hclass, eraseIdx_append_cons,
      pushVoidCap_eq, checkudataOf, modify_append_cons, setRaw_envTable]

theorem setRights_eq (hd : userdata[n]? = some d) (r : BitVec 32) :
    setRights r ⟨(.userdata n :: rest).reverse, tables, userdata⟩ =
      if d.object.rights.setWidth 32 = r then
        .ok (n, ⟨.userdata n :: (.userdata n :: rest).reverse, tables, userdata⟩)
      else .ok (userdata.length, ⟨.userdata userdata.length :: (.userdata n :: rest).reverse, tables,
        userdata ++ [⟨d.object.setRights (r.setWidth 8), d.env⟩]⟩) := by
  obtain ⟨hlt, rfl⟩ := List.getElem?_eq_some_iff.mp hd
  have hlt' : n < userdata.length + 1 := Nat.lt_succ_of_lt hlt
  by_cases hr : userdata[n].object.rights.setWidth 32 = r
  · simp [setRights, checkCap, checkudataOf, hlt, hr]
  · simp [setRights, checkCap, clone, checkudataOf, hlt, hlt', hr, modify_append_cons, List.getElem_append_left hlt]

theorem callFun_observe (hd : userdata[n]? = some d) (f : CapObject κ → LuaVal) (rest : List LuaVal) :
    callFun (do let c ← checkCap (.bottom 1); let d ← deref c; push (f d.object); return 1) (.userdata n :: rest)
      ⟨[], tables, userdata⟩ = .ok ([f d.object], ⟨[], tables, userdata⟩) := by
  obtain ⟨hlt, rfl⟩ := List.getElem?_eq_some_iff.mp hd
  simp [checkudataOf, hlt]

theorem callFun_secondArgument (f : Option LuaVal → CapFun κ Nat) (args : List LuaVal) (lua : LuaState (CapObject κ)) :
    callFun (valueAt (.bottom 2) >>= f) args lua = callFun (f args[1]?) args lua := by
  simp

/-- A method is looked up, first for all capabilities and then for the type in the environment. -/
theorem callFun_index (h : Finds tables a) (hvoid : IsClass a.classes 3) (hd : userdata[n]? = some d)
    {type : Option Nat} (henv : tables[d.env]? = some (envTable type)) (key : LuaVal) (rest : List LuaVal)
    (name : Option String) :
    callFun (index name) (.userdata n :: key :: rest) ⟨[], tables, userdata⟩ =
      if a.method 3 key ≠ .nil then .ok ([a.method 3 key], ⟨[], tables, userdata⟩)
      else match type, name.bind fun name => a.classOf (.string name) with
        | some t, _ => (field tables key maxTagLoop t).map fun v => ([v], ⟨[], tables, userdata⟩)
        | none, some t => (field (tables.modify d.env (setRaw (.number 0) (.table t))) key maxTagLoop t).map fun v =>
            ([v], ⟨[], tables.modify d.env (setRaw (.number 0) (.table t)), userdata⟩)
        | none, none => .ok ([], ⟨[], tables, userdata⟩) := by
  obtain ⟨hlt, rfl⟩ := List.getElem?_eq_some_iff.mp hd
  have hmethod := h.method 3 key hvoid
  by_cases hnil : a.method 3 key = .nil
  · cases type with
    | some t =>
      simp [index, getMethodTable_eq h, h.void, hmethod, checkudataOf, hlt, hnil, henv, envTable]
      cases field tables key maxTagLoop t <;> rfl
    | none =>
      cases name with
      | none => simp [index, getMethodTable_eq h, h.void, hmethod, checkudataOf, hlt, hnil, henv, envTable,
          findDynamicType]
      | some name =>
        rcases h.known (.string name) with hname | ⟨t, hname, -⟩
        · have hnone : a.classOf (.string name) = none := by rw [PlainCaps.classOf, hname]; rfl
          simp [index, getMethodTable_eq h, h.void, hmethod, checkudataOf, hlt, hnil, henv, envTable, findDynamicType,
            hname, hnone]
        · have hsome : a.classOf (.string name) = some t := by rw [PlainCaps.classOf, hname]; rfl
          simp [index, getMethodTable_eq h, h.void, hmethod, checkudataOf, hlt, hnil, henv, envTable, findDynamicType,
            hname, hsome]
          cases field (tables.modify userdata[n].env (setRaw (.number 0) (.table t))) key maxTagLoop t <;> rfl
  · simp [index, getMethodTable_eq h, h.void, hmethod, checkudataOf, hlt, hnil]

theorem callFun_castArgument (h : Finds tables a) (hd : userdata[n]? = some d) (key : LuaVal) :
    callFun (castArgument E) [key, .userdata n] ⟨[], tables, userdata⟩ =
      match a.classOf key with
      | none => .ok ([.nil], ⟨[], tables, userdata⟩)
      | some t => .ok ([.userdata userdata.length], ⟨[], tables ++ [envTable (some t)],
          userdata ++ [⟨⟨d.object.c, d.object.rights, 0⟩, tables.length⟩]⟩) := by
  obtain ⟨hlt, rfl⟩ := List.getElem?_eq_some_iff.mp hd
  have hne : n ≠ userdata.length := Nat.ne_of_lt hlt
  cases hclass : a.classOf key with
  | none => simp [castArgument, checkudataOf, hlt, pushNewCap_eq h, hclass]
  | some t =>
    simp [castArgument, checkudataOf, hlt, pushNewCap_eq h, hclass, assign, hne, List.getElem_append_left hlt,
      Nat.lt_succ_of_lt hlt, modify_append_cons, CapObject.new]

theorem callFun_registerCap (h : Finds tables a) (i : κ) (proto : Int) :
    callFun (registerCap E i proto) [] ⟨[], tables, userdata⟩ =
      .ok ([.userdata userdata.length], ⟨[], tables ++ [envTable (a.classOf (.number proto))],
        userdata ++ [⟨⟨i, l4CapFpageRws.setWidth 16 ||| l4FpageRo.setWidth 16, 0⟩, tables.length⟩]⟩) := by
  simp [registerCap, pushNewCap_eq h, modify_append_cons, CapObject.new, CapObject.set, CapObject.setRights]

/-- A kernel object is created, if there is a number to tell its type, a capability slot and no error of the factory. -/
theorem callFun_alloc (h : Finds tables a) (hn : n < userdata.length) (rest : List LuaVal) (obj : Option κ) (r : Int) :
    callFun (alloc E obj r) (.userdata n :: rest) ⟨[], tables, userdata⟩ =
      match rest[0]?.bind E.number?, obj with
      | some objt, some obj =>
        if r < 0 then .error .error
        else .ok ([.userdata userdata.length],
          ⟨[], tables ++ [envTable (a.classOf (.number (BitVec.ofInt 32 objt).toInt))],
            userdata ++ [⟨⟨obj, l4FpageRo.setWidth 16, 0⟩, tables.length⟩]⟩)
      | _, _ => .error .error := by
  cases hobjt : rest[0]?.bind E.number? with
  | none => simp [alloc, checkudataOf, hn, checkint, hobjt]
  | some objt =>
    cases obj with
    | none => simp [alloc, checkudataOf, hn, checkint, hobjt]
    | some obj =>
      by_cases hr : r < 0
      · simp [alloc, checkudataOf, hn, checkint, hobjt, hr]
      · simp [-BitVec.toInt_ofInt, alloc, checkudataOf, hn, checkint, hobjt, hr, pushNewCap_eq h, modify_append_cons,
          CapObject.new, CapObject.set]

theorem callFun_lookup (hn : n < userdata.length) (rights : LuaVal) (obj : Option κ) (r : Int) :
    callFun (lookup E (.userdata n) rights obj r) [] ⟨[], tables, userdata⟩ =
      match obj with
      | none => .error .error
      | some obj =>
        if r = -l4Enoent then .ok ([.nil], ⟨[], tables, userdata⟩)
        else if r < 0 then .error .error
        else .ok ([.userdata userdata.length], ⟨[], tables ++ [envTable none],
          userdata ++ [⟨⟨obj, (BitVec.ofInt 8 ((E.number? rights).getD 0) ||| l4FpageRo).setWidth 16, 0⟩,
          tables.length⟩]⟩) := by
  cases obj with
  | none => simp [lookup, checkudataOf, hn]
  | some obj =>
    by_cases henoent : r = -l4Enoent
    · simp [lookup, checkudataOf, hn, henoent]
    · by_cases hr : r < 0
      · simp [lookup, checkudataOf, hn, henoent, hr]
      · simp [-BitVec.setWidth_or, lookup, checkudataOf, hn, henoent, hr, pushVoidCap_eq, modify_append_cons,
          CapObject.new, CapObject.set, CapObject.setRights]

end Cap

/-! ## Calls -/

namespace PlainCaps
variable {κ : Type} {E : CapsEnv κ} {a a' : PlainCaps κ} {lua : LuaState (CapObject κ)} {args : List LuaVal}
    {v : LuaVal} {n : Nat}
  {p : PlainCap κ}

/-- Between two calls Lua has these capabilities. -/
structure Holds (lua : LuaState (CapObject κ)) (a : PlainCaps κ) : Prop where
  stack : lua.stack = []
  tables : lua.tables = a.classes ++ a.types.map envTable
  userdata : lua.userdata = a.caps.map (PlainCap.userdata a.classes.length)
  classes : ClassTables a.classes
  typed : ∀ p ∈ a.caps, p.type < a.types.length
  known : ∀ t, some t ∈ a.types → IsClass a.classes t

theorem Holds.finds (h : Holds lua a) : Finds lua.tables a := by
  rw [h.tables]
  exact h.classes.finds

/-- Both calls return the same, or both end in the same way before they return. -/
def Agree : Except LuaFault (List LuaVal × LuaState (CapObject κ)) → Except LuaFault (List LuaVal × PlainCaps κ) → Prop
  | .ok r, .ok r' => r.1 = r'.1 ∧ Holds r.2 r'.2
  | .error e, .error e' => e = e'
  | _, _ => False

theorem cap?_cases (a : PlainCaps κ) (v : Option LuaVal) :
    (a.cap? v = none ∧ ∀ n, v = some (.userdata n) → a.caps.length ≤ n) ∨
      ∃ n p, v = some (.userdata n) ∧ a.caps[n]? = some p ∧ a.cap? v = some (n, p) := by
  cases v with
  | none => exact Or.inl ⟨rfl, nofun⟩
  | some v =>
    cases v with
    | userdata n =>
      cases hp : a.caps[n]? with
      | none =>
        refine Or.inl ⟨by simp only [cap?, hp, Option.map_none], fun m hm => ?_⟩
        obtain rfl := LuaVal.userdata.inj (Option.some.inj hm)
        exact List.getElem?_eq_none_iff.mp hp
      | some p => exact Or.inr ⟨n, p, rfl, hp, by simp only [cap?, hp, Option.map_some]⟩
    | _ => exact Or.inl ⟨rfl, nofun⟩

/-- Where no capability is, the check of the argument ends the call. -/
theorem Holds.checkudataOf_error (h : Holds lua a) {v : Option LuaVal}
    (hv : ∀ n, v = some (.userdata n) → a.caps.length ≤ n)
    {s : LuaState (CapObject κ)} (hs : s.userdata = lua.userdata) : checkudataOf v s = .error .error := by
  cases v with
  | none => rfl
  | some v =>
    cases v with
    | userdata n =>
      have hlen : s.userdata.length = a.caps.length := by rw [hs, h.userdata, List.length_map]
      have hle := hv n rfl
      simp only [checkudataOf, hlen, Nat.not_lt.mpr hle, if_false]
    | _ => rfl

theorem Holds.getElem? (h : Holds lua a) (hp : a.caps[n]? = some p) :
    lua.userdata[n]? = some (p.userdata a.classes.length) := by
  rw [h.userdata, List.getElem?_map, hp, Option.map_some]

theorem Holds.userdata_length (h : Holds lua a) : lua.userdata.length = a.caps.length := by
  rw [h.userdata, List.length_map]

theorem Holds.lt_userdata (h : Holds lua a) (hp : a.caps[n]? = some p) : n < lua.userdata.length :=
  (List.getElem?_eq_some_iff.mp (h.getElem? hp)).1

theorem exists_rest (h : args[0]? = some v) : ∃ rest, args = v :: rest := by
  cases args with
  | nil => cases h
  | cons u rest => exact ⟨rest, congrArg (· :: rest) (Option.some.inj h)⟩

theorem Holds.lua_eq (h : Holds lua a) : lua = ⟨[], lua.tables, lua.userdata⟩ := by
  obtain ⟨stack, tables, userdata⟩ := lua
  rw [show stack = [] from h.stack]

/-- A copy is made, with other rights. -/
theorem Holds.copy (h : Holds lua a) (hp : a.caps[n]? = some p) (rights : BitVec 16) :
    Holds ⟨[], lua.tables, lua.userdata ++ [{ p with rights }.userdata a.classes.length]⟩
      { a with caps := a.caps ++ [{ p with rights }] } where
  stack := rfl
  tables := h.tables
  userdata := by
    rw [List.map_append, h.userdata]
    rfl
  classes := h.classes
  typed q hq := by
    rcases List.mem_append.mp hq with hq | hq
    · exact h.typed q hq
    · obtain rfl := List.mem_singleton.mp hq
      exact h.typed p (List.mem_of_getElem? hp)
  known := h.known

/-- A capability is made, in an environment of its own. -/
theorem Holds.newCap (h : Holds lua a) (c : κ) (rights : BitVec 16) (type : Option Nat)
    (htype : ∀ t, type = some t → IsClass a.classes t) :
    Holds ⟨[], lua.tables ++ [envTable type], lua.userdata ++ [⟨⟨c, rights, 0⟩, lua.tables.length⟩]⟩
      (a.newCap c rights type).2 where
  stack := rfl
  tables := by
    rw [h.tables, PlainCaps.newCap, List.map_append, List.append_assoc]
    rfl
  userdata := by
    have hlen : lua.tables.length = a.classes.length + a.types.length := by rw [h.tables, List.length_append,
      List.length_map]
    rw [hlen, PlainCaps.newCap, List.map_append, h.userdata]
    rfl
  classes := h.classes
  typed q hq := by
    show q.type < (a.types ++ [type]).length
    rw [List.length_append, List.length_singleton]
    rcases List.mem_append.mp hq with hq | hq
    · exact Nat.lt_succ_of_lt (h.typed q hq)
    · obtain rfl := List.mem_singleton.mp hq
      exact Nat.lt_succ_self _
  known t ht := by
    rcases List.mem_append.mp ht with ht | ht
    · exact h.known t ht
    · exact htype t (List.mem_singleton.mp ht).symm

theorem Holds.isClass (h : Holds lua a) (key : LuaVal) {t : Nat} (ht : a.classOf key = some t) :
    IsClass a.classes t := by
  rcases h.finds.known key with hnil | ⟨t', ht', hclass⟩
  · rw [classOf, hnil] at ht
    cases ht
  · rw [classOf, ht'] at ht
    obtain rfl : t' = t := Option.some.inj ht
    exact hclass

theorem Holds.observe (h : Holds lua a) (f : CapObject κ → LuaVal) :
    Agree (Cap.callFun (do let c ← Cap.checkCap (.bottom 1); let d ← deref c; push (f d.object); return 1) args lua)
      ((orError (a.cap? args[0]?)).map fun v => ([f ⟨v.2.c, v.2.rights, 0⟩], a)) := by
  rcases a.cap?_cases args[0]? with ⟨hnone, hv⟩ | ⟨n, p, harg, hp, hsome⟩
  · have herror : checkudataOf args[0]? { lua with stack := args.reverse } = .error .error :=
      h.checkudataOf_error hv rfl
    simp [Cap.callFun, Cap.checkCap, herror, hnone, orError, Agree]
  · obtain ⟨rest, rfl⟩ := exists_rest harg
    rw [h.lua_eq, Cap.callFun_observe (h.getElem? hp), hsome]
    exact ⟨rfl, h.lua_eq ▸ h⟩

theorem Holds.isValid (h : Holds lua a) : Agree (Cap.call E lua (.isValid args)) (a.call E (.isValid args)) :=
  h.observe fun o => .boolean (E.isValid o.c)

theorem Holds.setRights (h : Holds lua a) (hp : a.caps[n]? = some p) (rest : List LuaVal) (r : BitVec 32) :
    Agree (Cap.callFun (do let _ ← Cap.setRights r; return 1) (.userdata n :: rest) lua)
    (.ok (a.withRights (n, p) r)) := by
  by_cases hr : p.rights.setWidth 32 = r
  · have hcall : Cap.callFun (do let _ ← Cap.setRights r; return 1) (.userdata n :: rest) lua =
        .ok ([.userdata n], lua) := by
      rw [Cap.callFun, bind_apply, Cap.setRights_eq (h.getElem? hp),
        if_pos (show (p.userdata _).object.rights.setWidth 32 = r from hr)]
      exact congrArg (fun lua => Except.ok ([LuaVal.userdata n], lua)) h.lua_eq.symm
    rw [hcall, withRights, if_pos hr]
    exact ⟨rfl, h⟩
  · rw [Cap.callFun, bind_apply, Cap.setRights_eq (h.getElem? hp),
      if_neg (show ¬(p.userdata _).object.rights.setWidth 32 = r from hr),
      withRights, if_neg hr, h.userdata_length]
    exact ⟨rfl, h.copy hp ((r.setWidth 8 ||| l4FpageRo).setWidth 16)⟩

theorem Holds.setRights_error (h : Holds lua a) (hv : ∀ n, args[0]? = some (.userdata n) → a.caps.length ≤ n)
    (r : BitVec 32) :
    Cap.callFun (do let _ ← Cap.setRights r; return 1) args lua = .error .error := by
  have herror : checkudataOf args[0]? { lua with stack := args.reverse } = .error .error := h.checkudataOf_error hv rfl
  simp [Cap.callFun, Cap.setRights, Cap.checkCap, herror]

theorem Holds.full (h : Holds lua a) : Agree (Cap.call E lua (.full args)) (a.call E (.full args)) := by
  rcases a.cap?_cases args[0]? with ⟨hnone, hv⟩ | ⟨n, p, harg, hp, hsome⟩
  · rw [Cap.call, Cap.full, h.setRights_error hv, PlainCaps.call, hnone]
    rfl
  · obtain ⟨rest, rfl⟩ := exists_rest harg
    rw [Cap.call, Cap.full, PlainCaps.call, hsome]
    exact h.setRights hp rest 0xef

/-- `mode` with rights. -/
theorem Holds.modeRights (h : Holds lua a) (arg : LuaVal) :
    Agree (Cap.callFun (do let r ← fun s => (Cap.argumentRights E arg).map (·, s); let _ ← Cap.setRights r; return 1)
        args lua)
      ((Cap.argumentRights E arg).bind fun r => (orError (a.cap? args[0]?)).map fun v => a.withRights v r) := by
  cases Cap.argumentRights E arg with
  | error e => exact rfl
  | ok r =>
    show Agree (Cap.callFun (do let _ ← Cap.setRights r; return 1) args lua)
      ((orError (a.cap? args[0]?)).map fun v => a.withRights v r)
    rcases a.cap?_cases args[0]? with ⟨hnone, hv⟩ | ⟨n, p, harg, hp, hsome⟩
    · rw [h.setRights_error hv, hnone]
      rfl
    · obtain ⟨rest, rfl⟩ := exists_rest harg
      rw [hsome]
      exact h.setRights hp rest r

theorem Holds.mode (h : Holds lua a) : Agree (Cap.call E lua (.mode args)) (a.call E (.mode args)) := by
  rw [Cap.call, Cap.setModeCall, Cap.callFun_secondArgument, PlainCaps.call]
  rcases args[1]? with _ | arg
  · exact h.observe fun o => .number o.lowRights.toNat
  · cases arg with
    | nil => exact h.observe fun o => .number o.lowRights.toNat
    | _ => exact h.modeRights _

/-- The type of a family gets known. -/
theorem Holds.setType (h : Holds lua a) (hp : p ∈ a.caps) {t : Nat} (ht : IsClass a.classes t)
    (hunknown : a.types[p.type]? = some none) :
    Holds ⟨[], lua.tables.modify (a.classes.length + p.type) (setRaw (.number 0) (.table t)), lua.userdata⟩
      { a with types := a.types.set p.type (some t) } where
  stack := rfl
  tables := by
    show lua.tables.modify _ _ = a.classes ++ (a.types.set p.type (some t)).map envTable
    rw [h.tables, modify_append_right, List.map_set]
    congr 1
    refine List.ext_getElem? fun i => ?_
    rw [List.getElem?_modify, List.getElem?_set, List.getElem?_map]
    by_cases hi : p.type = i
    · subst hi
      rw [hunknown]
      simp [setRaw_envTable, h.typed p hp]
    · simp [hi]
  userdata := h.userdata
  classes := h.classes
  typed q hq := by
    rw [List.length_set]
    exact h.typed q hq
  known t' ht' := by
    rcases List.mem_or_eq_of_mem_set ht' with hmem | heq
    · exact h.known t' hmem
    · exact Option.some.inj heq ▸ ht

theorem Holds.index (h : Holds lua a) {name : Option String} (hargs : 2 ≤ args.length) :
    Agree (Cap.call E lua (.index args name)) (a.call E (.index args name)) := by
  rcases a.cap?_cases args[0]? with ⟨hnone, hv⟩ | ⟨n, p, harg, hp, hsome⟩
  · have herror : checkudataOf args[0]? { lua with stack := args.reverse } = .error .error :=
      h.checkudataOf_error hv rfl
    simp [Cap.call, Cap.callFun, Cap.index, Cap.checkCap, herror, PlainCaps.call, hnone, orError, Agree]
  · obtain ⟨args, rfl⟩ := exists_rest harg
    cases args with
    | nil => exact absurd hargs (by simp)
    | cons key rest =>
      have hvoid : IsClass a.classes 3 := by
        obtain ⟨v, hv, hindex⟩ := h.classes.void
        exact ⟨by decide, v, hv, Or.inl hindex⟩
      have hmem := List.mem_of_getElem? hp
      obtain ⟨type, htype⟩ : ∃ type, a.types[p.type]? = some type := ⟨_, List.getElem?_eq_getElem (h.typed p hmem)⟩
      have henv : lua.tables[a.classes.length + p.type]? = some (envTable type) := by
        rw [h.tables, List.getElem?_append_right (Nat.le_add_right _ _), Nat.add_sub_cancel_left, List.getElem?_map,
          htype, Option.map_some]
      have hcall := Cap.callFun_index h.finds hvoid (h.getElem? hp) henv key rest name
      rw [Cap.call, h.lua_eq, hcall, PlainCaps.call, hsome]
      simp only [orError, ok_map, PlainCaps.index, htype, List.getElem?_cons_succ, List.getElem?_cons_zero,
        Option.getD_some, Option.join_some]
      have hsame : Holds ⟨[], lua.tables, lua.userdata⟩ a := h.lua_eq ▸ h
      split
      · exact ⟨rfl, hsame⟩
      · cases type with
        | some t =>
          simp only [h.finds.method t key (h.known t (List.mem_of_getElem? htype))]
          exact ⟨rfl, hsame⟩
        | none =>
          -- The type is not known yet. The family of the capability gets it where the name is that of a class.
          cases hname : name.bind fun name => a.classOf (.string name) with
          | none => exact ⟨rfl, hsame⟩
          | some t =>
            obtain ⟨name, rfl, hclass⟩ := Option.bind_eq_some_iff.mp hname
            have hset := h.setType hmem (h.isClass _ hclass) htype
            have hfield :
                field (lua.tables.modify (p.userdata a.classes.length).env (setRaw (.number 0) (.table t))) key
                  maxTagLoop t = .ok (a.method t key) := hset.finds.method t key (h.isClass _ hclass)
            simp only [hfield]
            exact ⟨rfl, hset⟩

/-- The value that `__cast` gets a capability from. -/
theorem Holds.castArgument (h : Holds lua a) (key v : LuaVal) :
    Agree (Cap.callFun (Cap.castArgument E) [key, v] lua)
    ((orError (a.cap? (some v))).map fun u => a.cast u.2 key) := by
  rcases a.cap?_cases (some v) with ⟨hnone, hv⟩ | ⟨n, p, harg, hp, hsome⟩
  · have herror : checkudataOf (some v) { lua with stack := [v, key] } = .error .error := h.checkudataOf_error hv rfl
    have hcall : Cap.callFun (Cap.castArgument E) [key, v] lua = .error .error := by
      simp [Cap.callFun, Cap.castArgument, Cap.checkCap, herror]
    rw [hcall, hnone]
    rfl
  · obtain rfl := Option.some.inj harg
    rw [h.lua_eq, Cap.callFun_castArgument h.finds (h.getElem? hp), hsome, orError, ok_map, PlainCaps.cast]
    cases hclass : a.classOf key with
    | none => exact ⟨rfl, h.lua_eq ▸ h⟩
    | some t =>
      rw [h.userdata_length]
      exact ⟨rfl, h.newCap p.c p.rights (some t) fun _ ht' => h.isClass key (hclass.trans ht')⟩

theorem Holds.cast (h : Holds lua a) {called : LuaVal} :
    Agree (Cap.call E lua (.cast args called)) (a.call E (.cast args called)) := by
  rcases args with _ | ⟨key, _ | ⟨v, _ | ⟨u, rest⟩⟩⟩
  · exact rfl
  · exact rfl
  · cases v with
    | function f => exact h.castArgument (E := E) key called
    | nil => exact h.castArgument (E := E) key .nil
    | boolean b => exact h.castArgument (E := E) key (.boolean b)
    | number n => exact h.castArgument (E := E) key (.number n)
    | string s => exact h.castArgument (E := E) key (.string s)
    | table t => exact h.castArgument (E := E) key (.table t)
    | userdata n => exact h.castArgument (E := E) key (.userdata n)
  · have hlong : 2 < (key :: v :: u :: rest).length := by simp
    rw [PlainCaps.call, if_pos hlong, Cap.call, Cap.callFun, Cap.cast, bind_apply]
    simp [Agree]

theorem Holds.registerCap (h : Holds lua a) {i : κ} {proto : Int} :
    Agree (Cap.call E lua (.registerCap i proto)) (a.call E (.registerCap i proto)) := by
  rw [Cap.call, h.lua_eq, Cap.callFun_registerCap h.finds, PlainCaps.call, h.userdata_length]
  exact ⟨rfl, h.newCap i (l4CapFpageRws.setWidth 16 ||| l4FpageRo.setWidth 16) _ fun _ => h.isClass (.number proto)⟩

theorem Holds.create (h : Holds lua a) {obj : Option κ} {r : Int} :
    Agree (Cap.call E lua (.create args obj r)) (a.call E (.create args obj r)) := by
  rcases a.cap?_cases args[0]? with ⟨hnone, hv⟩ | ⟨n, p, harg, hp, hsome⟩
  · have herror : checkudataOf args[0]? { lua with stack := args.reverse } = .error .error :=
      h.checkudataOf_error hv rfl
    have hcall : Cap.call E lua (.create args obj r) = .error .error := by
      simp [Cap.call, Cap.callFun, Cap.alloc, Cap.checkCap, herror]
    rw [hcall, PlainCaps.call, hnone]
    rfl
  · obtain ⟨rest, rfl⟩ := exists_rest harg
    rw [Cap.call, h.lua_eq, Cap.callFun_alloc h.finds (h.lt_userdata hp), PlainCaps.call, hsome,
      List.getElem?_cons_succ]
    cases rest[0]?.bind E.number? with
    | none => exact rfl
    | some objt =>
      cases obj with
      | none =>
        show Agree (.error .error) ((orError (if r < 0 then none else none)).map _)
        rw [ite_self]
        exact rfl
      | some obj =>
        show Agree (if r < 0 then .error .error else _) ((orError (if r < 0 then none else some obj)).map _)
        split
        · exact rfl
        · rw [h.userdata_length]
          exact ⟨rfl, h.newCap obj (l4FpageRo.setWidth 16) _ fun _ => h.isClass (.number (BitVec.ofInt 32 objt).toInt)⟩

theorem Holds.lookup (h : Holds lua a) {ns rights : LuaVal} {obj : Option κ} {r : Int} :
    Agree (Cap.call E lua (.lookup ns rights obj r)) (a.call E (.lookup ns rights obj r)) := by
  rcases a.cap?_cases (some ns) with ⟨hnone, hv⟩ | ⟨n, p, harg, hp, hsome⟩
  · have herror : checkudataOf (some ns) { lua with stack := [] } = .error .error := h.checkudataOf_error hv rfl
    have hcall : Cap.call E lua (.lookup ns rights obj r) =
      .error .error := by simp [Cap.call, Cap.callFun, Cap.lookup, herror]
    rw [hcall, PlainCaps.call, hnone]
    rfl
  · obtain rfl := Option.some.inj harg
    rw [Cap.call, h.lua_eq, Cap.callFun_lookup (h.lt_userdata hp), PlainCaps.call, hsome]
    cases obj with
    | none => exact rfl
    | some obj =>
      show Agree (if r = -l4Enoent then _ else if r < 0 then _ else _)
        (if r = -l4Enoent then _ else if r < 0 then _ else _)
      split
      · exact ⟨rfl, h.lua_eq ▸ h⟩
      · split
        · exact rfl
        · rw [h.userdata_length]
          have hnone : ∀ t, (none : Option Nat) = some t → IsClass a.classes t := by
            intro t ht
            cases ht
          exact ⟨rfl, h.newCap obj ((BitVec.ofInt 8 ((E.number? rights).getD 0) ||| l4FpageRo).setWidth 16) none hnone⟩

theorem ClassTables.setField {classes : List LuaTable} (h : ClassTables classes) {t : Nat} (ht : 2 < t)
    (key v : LuaVal) :
    ClassTables (classes.modify t (setRaw key v)) := by
  have hbelow (i : Nat) (hi : i ≤ 2) : (classes.modify t (setRaw key v))[i]? = classes[i]? :=
    List.getElem?_modify_ne _ _ (by omega)
  have hclass {u : Nat} : IsClass classes u → IsClass (classes.modify t (setRaw key v)) u := by
    rintro ⟨hu, table, htable, hindex⟩
    refine ⟨hu, _, by rw [List.getElem?_modify, htable]; rfl, ?_⟩
    show (if t = u then setRaw key v table else table).index = none ∨ _
    split
    · exact hindex
    · exact hindex
  obtain ⟨c, hc, hindex, hvoid, hall⟩ := h.types
  obtain ⟨void, hv, hnone⟩ := h.void
  refine ⟨?_, ?_, ⟨c, ?_, hindex, hvoid, fun k => ?_⟩, ?_⟩
  · rw [hbelow 0 (by decide)]
    exact h.globals
  · rw [hbelow 1 (by decide)]
    exact h.package
  · rw [hbelow 2 (by decide)]
    exact hc
  · rcases hall k with hnil | ⟨u, hu, hcl⟩
    · exact Or.inl hnil
    · exact Or.inr ⟨u, hu, hclass hcl⟩
  · refine ⟨_, by rw [List.getElem?_modify, hv]; rfl, ?_⟩
    show (if t = 3 then setRaw key v void else void).index = none
    split
    · exact hnone
    · exact hnone

/-- A call as Lua makes it: methods are looked up with a key, and fields are set in the tables of types, under no
    nil. -/
def Allowed (s : LuaCalls (LuaState (CapObject κ))) : CapCall κ → Prop
  | .index args _ => 2 ≤ args.length
  | .setField t key _ => key ≠ .nil ∧ ∃ name, field s.state.tables name maxTagLoop 2 = .ok (.table t)
  | _ => True

theorem Holds.setField (h : Holds lua a) {t : Nat} {key : LuaVal}
    (ht : ∃ name, field lua.tables name maxTagLoop 2 = .ok (.table t)) :
    Agree (Cap.call E lua (.setField t key v)) (a.call E (.setField t key v)) := by
  obtain ⟨name, hname⟩ := ht
  rw [h.finds.types] at hname
  have hclass : IsClass a.classes t := by
    refine h.isClass name ?_
    rw [classOf, Except.ok.inj hname]
    rfl
  obtain ⟨hpos, table, htable, -⟩ := hclass
  have hlt : t < a.classes.length := (List.getElem?_eq_some_iff.mp htable).1
  refine ⟨rfl, ⟨h.stack, ?_, ?_, ClassTables.setField h.classes hpos key v, h.typed, ?_⟩⟩
  · show lua.tables.modify t (setRaw key v) = _
    rw [h.tables, modify_append_left _ _ hlt]
  · show lua.userdata = a.caps.map (PlainCap.userdata (a.classes.modify t (setRaw key v)).length)
    rw [List.length_modify]
    exact h.userdata
  · rintro u hu
    obtain ⟨hu', table', htable', hindex⟩ := h.known u hu
    refine ⟨hu', _, by rw [List.getElem?_modify, htable']; rfl, ?_⟩
    show (if t = u then setRaw key v table' else table').index = none ∨ _
    split
    · exact hindex
    · exact hindex

theorem Holds.call (h : Holds lua a) {c : CapCall κ} {returned : List CapResult} {crashed : Bool}
    (hallowed : Allowed ⟨lua, returned, crashed⟩ c) : Agree (Cap.call E lua c) (a.call E c) := by
  cases c with
  | isValid => exact h.isValid
  | mode => exact h.mode
  | full => exact h.full
  | index => exact h.index hallowed
  | cast => exact h.cast
  | create => exact h.create
  | lookup => exact h.lookup
  | registerCap => exact h.registerCap
  | setField => exact h.setField hallowed.2

/-! ### What calls keep -/

/-- The capability of the kernel that a call brings to Lua. -/
def given : CapCall κ → Option κ
  | .create _ obj _ => obj
  | .lookup _ _ obj _ => obj
  | .registerCap i _ => some i
  | _ => none

/-- What a call can do. -/
inductive Change (a : PlainCaps κ) (c : CapCall κ) : PlainCaps κ → Prop
  | same : Change a c a
  | copy (p : PlainCap κ) (hp : p ∈ a.caps) (r : BitVec 8) :
    Change a c { a with caps := a.caps ++ [{ p with rights := (r ||| l4FpageRo).setWidth 16 }] }
  | cast (p : PlainCap κ) (hp : p ∈ a.caps) (t : Nat) : Change a c (a.newCap p.c p.rights (some t)).2
  | new (k : κ) (hk : given c = some k) (r : BitVec 8) (type : Option Nat) :
    Change a c (a.newCap k ((r ||| l4FpageRo).setWidth 16) type).2
  | typed (p : PlainCap κ) (hp : p ∈ a.caps) (hunknown : a.types[p.type]?.join = none) (t : Nat) :
    Change a c { a with types := a.types.set p.type (some t) }
  | field (t : Nat) (key v : LuaVal) : Change a c { a with classes := a.classes.modify t (setRaw key v) }

theorem orError_map_eq_ok {α β : Type} {o : Option α} {f : α → β} {b : β} (h : (orError o).map f = .ok b) :
    ∃ x, o = some x ∧ f x = b := by
  cases o with
  | none => cases h
  | some x => exact ⟨x, rfl, Except.ok.inj h⟩

theorem orError_bind_eq_ok {α β : Type} {o : Option α} {f : α → Except LuaFault β} {b : β}
    (h : (orError o).bind f = .ok b) :
    ∃ x, o = some x ∧ f x = .ok b := by
  cases o with
  | none => cases h
  | some x => exact ⟨x, rfl, h⟩

theorem mem_of_cap? {v : Option LuaVal} {u : Nat × PlainCap κ} (h : a.cap? v = some u) : u.2 ∈ a.caps := by
  rcases a.cap?_cases v with ⟨hnone, -⟩ | ⟨n, p, -, hp, hsome⟩
  · rw [hnone] at h
    cases h
  · rw [hsome] at h
    cases h
    exact List.mem_of_getElem? hp

theorem change_withRights {c : CapCall κ} {u : Nat × PlainCap κ} (hu : u.2 ∈ a.caps) (r : BitVec 32) :
    Change a c (a.withRights u r).2 := by
  rw [withRights]
  split
  · exact .same
  · exact .copy u.2 hu (r.setWidth 8)

theorem change_index {c : CapCall κ} (hp : p ∈ a.caps) (key : LuaVal) (name : Option String) :
    Change a c (a.index p key name).2 := by
  rw [PlainCaps.index]
  split
  · exact .same
  · split
    · exact .same
    · next hunknown _ => exact .typed p hp hunknown _
    · exact .same

theorem change_cast {c : CapCall κ} (hp : p ∈ a.caps) (key : LuaVal) : Change a c (a.cast p key).2 := by
  rw [PlainCaps.cast]
  split
  · exact .cast p hp _
  · exact .same

theorem call_cases {c : CapCall κ} {values : List LuaVal} (h : a.call E c = .ok (values, a')) : Change a c a' := by
  cases c with
  | isValid args =>
    obtain ⟨u, -, heq⟩ := orError_map_eq_ok h
    cases heq
    exact .same
  | mode args =>
    rw [PlainCaps.call] at h
    split at h
    · obtain ⟨u, -, heq⟩ := orError_map_eq_ok h
      cases heq
      exact .same
    · obtain ⟨u, -, heq⟩ := orError_map_eq_ok h
      cases heq
      exact .same
    · next arg _ _ =>
      cases hr : Cap.argumentRights E arg with
      | error e =>
        rw [hr] at h
        cases h
      | ok r =>
        rw [hr] at h
        obtain ⟨u, hu, heq⟩ := orError_map_eq_ok h
        obtain rfl : (a.withRights u r).2 = a' := congrArg Prod.snd heq
        exact change_withRights (mem_of_cap? hu) r
  | full args =>
    obtain ⟨u, hu, heq⟩ := orError_map_eq_ok h
    obtain rfl : (a.withRights u 0xef).2 = a' := congrArg Prod.snd heq
    exact change_withRights (mem_of_cap? hu) 0xef
  | index args name =>
    obtain ⟨u, hu, heq⟩ := orError_map_eq_ok h
    obtain rfl : (a.index u.2 _ name).2 = a' := congrArg Prod.snd heq
    exact change_index (mem_of_cap? hu) _ name
  | cast args called =>
    rw [PlainCaps.call] at h
    split at h
    · cases h
    · obtain ⟨u, hu, heq⟩ := orError_map_eq_ok h
      obtain rfl : (a.cast u.2 _).2 = a' := congrArg Prod.snd heq
      exact change_cast (mem_of_cap? hu) _
  | create args obj r =>
    obtain ⟨u, -, h⟩ := orError_bind_eq_ok h
    obtain ⟨objt, -, h⟩ := orError_bind_eq_ok h
    obtain ⟨k, hk, heq⟩ := orError_map_eq_ok h
    split at hk
    · cases hk
    · obtain rfl : (a.newCap k _ _).2 = a' := congrArg Prod.snd heq
      exact Change.new k (show given (.create args obj r) = some k from hk) 0 _
  | lookup ns rights obj r =>
    obtain ⟨u, -, h⟩ := orError_bind_eq_ok h
    obtain ⟨k, hk, h⟩ := orError_bind_eq_ok h
    split at h
    · cases h
      exact .same
    · split at h
      · cases h
      · obtain rfl : (a.newCap k _ none).2 = a' := congrArg Prod.snd (Except.ok.inj h)
        exact Change.new k (show given (.lookup ns rights obj r) = some k from hk) _ none
  | registerCap i proto =>
    obtain rfl : (a.newCap i _ _).2 = a' := congrArg Prod.snd (Except.ok.inj h)
    exact .new i rfl l4CapFpageRws _
  | setField t key v =>
    obtain rfl : { a with classes := a.classes.modify t (setRaw key v) } = a' := congrArg Prod.snd (Except.ok.inj h)
    exact .field t key v

/-- The call that ends Ned: `mode` with rights that are neither a number nor a string. -/
def Crashes (E : CapsEnv κ) (c : CapCall κ) : Prop :=
  ∃ args arg, c = .mode args ∧ args[1]? = some arg ∧ Cap.argumentRights E arg = .error .crash

theorem orError_map_ne_crash {α β : Type} {o : Option α} {f : α → β} : (orError o).map f ≠ .error .crash := by
  cases o <;> exact nofun

theorem orError_bind_ne_crash {α β : Type} {o : Option α} {f : α → Except LuaFault β} (hf : ∀ x, f x ≠ .error .crash) :
    (orError o).bind f ≠ .error .crash := by
  cases o with
  | none => exact nofun
  | some x => exact hf x

theorem argumentRights_ne_error {e : LuaFault} (h : Cap.argumentRights E v = .error e) : e = .crash := by
  cases v <;> first | exact (Except.error.inj h).symm | cases h

theorem crashes_of_call {c : CapCall κ} (h : a.call E c = .error .crash) : Crashes E c := by
  cases c with
  | isValid args => exact absurd h orError_map_ne_crash
  | mode args =>
    rw [PlainCaps.call] at h
    split at h
    · exact absurd h orError_map_ne_crash
    · exact absurd h orError_map_ne_crash
    · next arg _ harg =>
      cases hr : Cap.argumentRights E arg with
      | error e =>
        obtain rfl := argumentRights_ne_error hr
        exact ⟨args, arg, rfl, harg, hr⟩
      | ok r =>
        rw [hr] at h
        exact absurd h orError_map_ne_crash
  | full args => exact absurd h orError_map_ne_crash
  | index args name => exact absurd h orError_map_ne_crash
  | cast args called =>
    rw [PlainCaps.call] at h
    split at h
    · cases h
    · exact absurd h orError_map_ne_crash
  | create args obj r =>
    exact absurd h (orError_bind_ne_crash fun _ => orError_bind_ne_crash fun _ => orError_map_ne_crash)
  | lookup ns rights obj r =>
    refine absurd h (orError_bind_ne_crash fun _ => orError_bind_ne_crash fun obj => ?_)
    split
    · exact nofun
    · split
      · exact nofun
      · exact nofun
  | registerCap i proto => cases h
  | setField t key v => cases h

/-- All rights are those of a byte and include that to read; the copies of a capability stand for the same one of the
    kernel. -/
structure Sound (a : PlainCaps κ) : Prop where
  rights : ∀ p ∈ a.caps, ∃ r : BitVec 8, p.rights = (r ||| l4FpageRo).setWidth 16
  typed : ∀ p ∈ a.caps, p.type < a.types.length
  family : ∀ p ∈ a.caps, ∀ q ∈ a.caps, p.type = q.type → p.c = q.c

/-- No capability is changed or lost, and no type that is known is. -/
structure Grows (a a' : PlainCaps κ) : Prop where
  caps : a.caps <+: a'.caps
  types : ∀ (i t : Nat), a.types[i]? = some (some t) → a'.types[i]? = some (some t)

theorem Sound.change {c : CapCall κ} (h : a.Sound) (hchange : Change a c a') : a'.Sound := by
  have hnew (k : κ) (rights : BitVec 16) (type : Option Nat)
    (hr : ∃ r : BitVec 8, rights = (r ||| l4FpageRo).setWidth 16) :
      Sound (a.newCap k rights type).2 := by
    have hlen : (a.newCap k rights type).2.types.length = a.types.length + 1 := List.length_append
    refine ⟨fun q hq => ?_, fun q hq => ?_, fun q hq q' hq' htype => ?_⟩
    · rcases List.mem_append.mp hq with hq | hq
      · exact h.rights q hq
      · exact List.mem_singleton.mp hq ▸ hr
    · rw [hlen]
      rcases List.mem_append.mp hq with hq | hq
      · exact Nat.lt_succ_of_lt (h.typed q hq)
      · exact List.mem_singleton.mp hq ▸ Nat.lt_succ_self _
    · rcases List.mem_append.mp hq with hq | hq <;> rcases List.mem_append.mp hq' with hq' | hq'
      · exact h.family q hq q' hq' htype
      · obtain rfl := List.mem_singleton.mp hq'
        exact absurd htype (Nat.ne_of_lt (h.typed q hq))
      · obtain rfl := List.mem_singleton.mp hq
        exact absurd htype.symm (Nat.ne_of_lt (h.typed q' hq'))
      · rw [List.mem_singleton.mp hq, List.mem_singleton.mp hq']
  cases hchange with
  | same => exact h
  | copy p hp r =>
    -- The copy has type and capability of the one it was made from.
    have hfamily : ∀ q ∈ a.caps ++ [{ p with rights := (r ||| l4FpageRo).setWidth 16 }],
        ∃ q' ∈ a.caps, q'.type = q.type ∧ q'.c = q.c := by
      rintro q hq
      rcases List.mem_append.mp hq with hq | hq
      · exact ⟨q, hq, rfl, rfl⟩
      · obtain rfl := List.mem_singleton.mp hq
        exact ⟨p, hp, rfl, rfl⟩
    refine ⟨fun q hq => ?_, fun q hq => ?_, fun q hq q' hq' htype => ?_⟩
    · rcases List.mem_append.mp hq with hq | hq
      · exact h.rights q hq
      · exact ⟨r, by rw [List.mem_singleton.mp hq]⟩
    · obtain ⟨o, ho, htype, -⟩ := hfamily q hq
      exact htype ▸ h.typed o ho
    · obtain ⟨o, ho, hot, hoc⟩ := hfamily q hq
      obtain ⟨o', ho', hot', hoc'⟩ := hfamily q' hq'
      rw [← hoc, ← hoc']
      exact h.family o ho o' ho' (hot.trans (htype.trans hot'.symm))
  | cast p hp t => exact hnew p.c p.rights (some t) (h.rights p hp)
  | new k hk r type => exact hnew k _ type ⟨r, rfl⟩
  | typed p hp hunknown t => exact ⟨h.rights, fun q hq => by rw [List.length_set]; exact h.typed q hq, h.family⟩
  | field t key v => exact ⟨h.rights, h.typed, h.family⟩

theorem Change.grows {c : CapCall κ} (hchange : Change a c a') : a.Grows a' := by
  have hnew (k : κ) (rights : BitVec 16) (type : Option Nat) : a.Grows (a.newCap k rights type).2 :=
    ⟨List.prefix_append _ _, fun i t ht => (List.getElem?_append_left (List.getElem?_eq_some_iff.mp ht).1).trans ht⟩
  cases hchange with
  | same => exact ⟨List.prefix_rfl, fun _ _ ht => ht⟩
  | copy p hp r => exact ⟨List.prefix_append _ _, fun _ _ ht => ht⟩
  | cast p hp t => exact hnew p.c p.rights (some t)
  | new k hk r type => exact hnew k _ type
  | typed p hp hunknown t =>
    refine ⟨List.prefix_rfl, fun i u hu => ?_⟩
    have hne : p.type ≠ i := by
      rintro rfl
      rw [hu] at hunknown
      cases hunknown
    exact (List.getElem?_set_ne hne).trans hu
  | field t key v => exact ⟨List.prefix_rfl, fun _ _ ht => ht⟩

/-- Lua has capabilities of the kernel only from the calls that bring them. -/
theorem Change.given {c : CapCall κ} {K : κ → Prop} (hchange : Change a c a') (h : ∀ p ∈ a.caps, K p.c)
    (hgiven : ∀ k, given c = some k → K k) : ∀ p ∈ a'.caps, K p.c := by
  cases hchange with
  | same => exact h
  | copy p hp r => exact fun q hq => (List.mem_append.mp hq).elim (h q) fun hq => List.mem_singleton.mp hq ▸ h p hp
  | cast p hp t => exact fun q hq => (List.mem_append.mp hq).elim (h q) fun hq => List.mem_singleton.mp hq ▸ h p hp
  | new k hk r type => exact fun q hq => (List.mem_append.mp hq).elim (h q) fun hq =>
      List.mem_singleton.mp hq ▸ hgiven k hk
  | typed p hp hunknown t => exact h
  | field t key v => exact h

end PlainCaps

/-! ## Registering types -/

namespace Cap
attribute [local simp] checkCap callFun

variable {κ : Type} {tables : List LuaTable}

/-- The methods in the table `c`. -/
def withMethods (c : LuaTable) (methods : List (String × LuaVal)) : LuaTable :=
  methods.foldl (fun c m => setRaw (.string m.1) m.2 c) c

theorem withMethods_index {c : LuaTable} (methods : List (String × LuaVal)) :
    (withMethods c methods).index = c.index := by
  induction methods generalizing c with
  | nil => rfl
  | cons m methods ih => exact ih

/-- Of several methods of one name the last one is there. -/
theorem withMethods_raw {c : LuaTable} (methods : List (String × LuaVal)) (key : LuaVal) :
    (withMethods c methods).raw key =
    ((methods.reverse.find? fun m => key = .string m.1).map Prod.snd).getD (c.raw key) := by
  induction methods generalizing c with
  | nil => rfl
  | cons m methods ih =>
    rw [withMethods, List.foldl_cons, ← withMethods, ih, List.reverse_cons, List.find?_append]
    cases methods.reverse.find? fun m => key = .string m.1 with
    | some found => rfl
    | none =>
      by_cases hkey : key = .string m.1
      · simp [setRaw, hkey]
      · simp [setRaw, hkey]

theorem registerMethods_eq (methods : List (String × LuaVal)) (tables : List LuaTable) (c : LuaTable)
    (stack : List LuaVal) (userdata : List (LuaUserdata (CapObject κ))) :
    registerMethods methods ⟨.table tables.length :: stack, tables ++ [c], userdata⟩ =
      .ok ((), ⟨.table tables.length :: stack, tables ++ [withMethods c methods], userdata⟩) := by
  induction methods generalizing c with
  | nil => rfl
  | cons m methods ih =>
    have hrest := ih (setRaw (.string m.1) m.2 c)
    rw [withMethods, List.foldl_cons, ← withMethods]
    rw [registerMethods] at hrest ⊢
    simpa [modify_append_cons] using hrest

theorem finds_start (h : ClassTables tables) (more : List LuaTable) :
    Finds (tables ++ more) (PlainCaps.start tables : PlainCaps κ) :=
  ClassTables.finds (a := PlainCaps.start tables) h

theorem addClassMetatable_ok (h : ClassTables tables) (c : LuaTable) (stack : List LuaVal)
    (userdata : List (LuaUserdata (CapObject κ))) :
    ∃ m, addClassMetatable ⟨.table tables.length :: stack, tables ++ [c], userdata⟩ =
      .ok ((), ⟨.table tables.length :: stack, tables ++ [⟨c.raw, some 3⟩, m], userdata⟩) := by
  have hfinds : Finds (tables ++ [c, .empty]) (PlainCaps.start tables : PlainCaps κ) := finds_start h _
  refine ⟨setRaw (.string "__index") (.table 3) .empty, ?_⟩
  simp [addClassMetatable, getClass, getCapCastTable_eq hfinds, hfinds.types, hfinds.void, modify_append_right,
    modify_append_cons, setRaw, LuaVal.table?]

end Cap

/-- The table of a type: its methods, the last one of each name, and its name. What is not there is looked up in the one
    for all capabilities. -/
def CapType.table (m : CapType) : LuaTable where
  raw key := if key = .string "_CLASS_NAME" then .string m.name
    else ((m.methods.reverse.find? fun method => key = .string method.1).map Prod.snd).getD .nil
  index := some 3

namespace Cap
variable {κ : Type} {tables : List LuaTable}

theorem table_eq (m : CapType) :
    setRaw (.string "_CLASS_NAME") (.string m.name) ⟨(withMethods .empty m.methods).raw, some 3⟩ = m.table := by
  rw [setRaw, CapType.table]
  simp only [withMethods_raw]
  rfl

/-- The tables when a type is registered. -/
def registered (tables : List LuaTable) (m : CapType) (metatable : LuaTable) : List LuaTable :=
  let new := tables ++ [m.table, metatable]
  (if m.proto = 0 then new else new.modify 2 (setRaw (.number m.proto) (.table tables.length))).modify 2
    (setRaw (.string m.name) (.table tables.length))

theorem registerCapType_eq (h : ClassTables tables) (m : CapType) (userdata : List (LuaUserdata (CapObject κ))) :
    ∃ metatable, registerCapType m ⟨[], tables, userdata⟩ =
    .ok ((), ⟨[], registered tables m metatable, userdata⟩) := by
  have hfinds : Finds tables (PlainCaps.start tables : PlainCaps κ) := by simpa using finds_start (κ := κ) h []
  have hmethods := registerMethods_eq m.methods tables .empty [.table 2] userdata
  obtain ⟨metatable, hmetatable⟩ := addClassMetatable_ok h (withMethods .empty m.methods) [.table 2] userdata
  refine ⟨metatable, ?_⟩
  by_cases hproto : m.proto = 0
  · simp [registerCapType, createClass, getCapCastTable_eq hfinds, hmethods, hmetatable, hproto, modify_append_cons,
      registered, table_eq]
  · simp [registerCapType, createClass, getCapCastTable_eq hfinds, hmethods, hmetatable, hproto, modify_append_cons,
      registered, table_eq]

theorem two_lt_length (h : ClassTables tables) : 2 < tables.length := by
  obtain ⟨void, hv, -⟩ := h.void
  exact Nat.lt_of_succ_lt (List.getElem?_eq_some_iff.mp hv).1

theorem classTables_registered (h : ClassTables tables) (m : CapType) (hname : m.name ≠ "void") (metatable : LuaTable) :
    ClassTables (registered tables m metatable) := by
  have hclass : IsClass (tables ++ [m.table, metatable]) tables.length := by
    refine ⟨two_lt_length h, m.table, ?_, Or.inr rfl⟩
    rw [List.getElem?_append_right (Nat.le_refl _), Nat.sub_self]
    rfl
  have htables := h.append [m.table, metatable]
  have hkey : LuaVal.string m.name ≠ .string "void" := fun heq => hname (LuaVal.string.inj heq)
  have hnumber : LuaVal.number m.proto ≠ .string "void" := by
    intro heq
    cases heq
  rw [registered]
  split
  · exact (htables.setType hclass hkey).1
  · obtain ⟨htables, hclass⟩ := htables.setType hclass hnumber
    exact (htables.setType hclass hkey).1

/-- The tables that `init_lua_cap` leaves, where `c` holds the methods of all capabilities. -/
def initTables (castFunction : LuaVal) (types c : LuaTable) : List LuaTable :=
  [⟨fun key => if key = .string luaPackage then .table 1 else .nil, none⟩,
    setRaw (.string castTable) (.table 2) (setRaw (.string "cast") castFunction .empty), types, c]

theorem initLuaCap_eq (castFunction : LuaVal) (methods : List (String × LuaVal)) :
    ∃ c, c.index = none ∧ initLuaCap castFunction methods blankLua =
      .ok ((), (⟨[], initTables castFunction (setRaw (.string "void") (.table 3) .empty) c, []⟩ :
        LuaState (CapObject κ))) := by
  have hmethods := registerMethods_eq methods ((initTables castFunction .empty .empty).take 3) .empty
    [.table 2, .table 1]
    ([] : List (LuaUserdata (CapObject κ)))
  refine ⟨setRaw (.string "_CLASS_NAME") (.string "void") (withMethods .empty methods), withMethods_index methods, ?_⟩
  have hglobals : field (blankLua : LuaState (CapObject κ)).tables (.string luaPackage) maxTagLoop 0 = .ok (.table 1) :=
    rfl
  have hglobals' : field ((initTables castFunction .empty .empty).take 3) (.string luaPackage) maxTagLoop 0 =
      .ok (.table 1) := rfl
  have hpackage : field ((initTables castFunction .empty .empty).take 3) (.string castTable) maxTagLoop 1 =
      .ok (.table 2) := rfl
  simp only [initTables, blankLua, List.take_succ_cons, List.take_zero, List.length_cons, List.length_nil,
    List.cons_append, List.nil_append, Nat.reduceAdd] at hglobals hglobals' hpackage hmethods ⊢
  simp [initLuaCap, getCapCastTable, createClass, hglobals, hglobals', hpackage, hmethods]

theorem classTables_initTables (castFunction : LuaVal) {c : LuaTable} (hindex : c.index = none) :
    ClassTables (initTables castFunction (setRaw (.string "void") (.table 3) .empty) c) := by
  refine ⟨⟨_, rfl, rfl⟩, ⟨_, rfl, rfl⟩, ⟨_, rfl, rfl, rfl, fun key => ?_⟩, ⟨_, rfl, hindex⟩⟩
  by_cases hkey : key = .string "void"
  · exact Or.inr ⟨3, if_pos hkey, by decide, _, rfl, Or.inl hindex⟩
  · exact Or.inl (if_neg hkey)

/-- What holds of the tables at first and is kept when a type is registered holds of them in the end. -/
theorem startLua_keeps {P : List CapType → List LuaTable → Prop} (castFunction : LuaVal)
    (methods : List (String × LuaVal)) {types : List CapType} (hnames : ∀ m ∈ types, m.name ≠ "void")
    (hstart : ∀ c, P [] (initTables castFunction (setRaw (.string "void") (.table 3) .empty) c))
    (hstep : ∀ before m tables metatable, ClassTables tables → P before tables →
    P (before ++ [m]) (registered tables m metatable)) :
    ∃ tables, startLua castFunction methods types = .ok ((), (⟨[], tables, []⟩ : LuaState (CapObject κ))) ∧
      ClassTables tables ∧ P types tables := by
  obtain ⟨c, hindex, hinit⟩ := initLuaCap_eq (κ := κ) castFunction methods
  rw [startLua, bind_apply, hinit, ok_bind]
  suffices hrun : ∀ before tables, ClassTables tables → P before tables → ∃ last,
      (types.forM registerCapType : CapFun κ Unit) ⟨[], tables, []⟩ = .ok ((), ⟨[], last, []⟩) ∧ ClassTables last ∧
        P (before ++ types) last from hrun [] _ (classTables_initTables castFunction hindex) (hstart c)
  clear hinit
  induction types with
  | nil =>
    intro before tables htables hP
    exact ⟨tables, rfl, htables, by rwa [List.append_nil]⟩
  | cons m types ih =>
    intro before tables htables hP
    obtain ⟨metatable, hm⟩ := registerCapType_eq htables m ([] : List (LuaUserdata (CapObject κ)))
    obtain ⟨last, hlast, hok, hPlast⟩ := ih (fun m' hm' => hnames m' (List.mem_cons_of_mem m hm')) (before ++ [m]) _
      (classTables_registered htables m (hnames m List.mem_cons_self) metatable)
        (hstep before m tables metatable htables hP)
    refine ⟨last, ?_, hok, by rwa [List.append_assoc] at hPlast⟩
    show (registerCapType m >>= fun _ => types.forM registerCapType) _ = _
    rw [bind_apply, hm, ok_bind]
    exact hlast

end Cap
/-! ## Runs -/

namespace LuaCalls
variable {κ : Type} {E : CapsEnv κ} {s s' : LuaCalls (LuaState (CapObject κ))} {b b' : LuaCalls (PlainCaps κ)}
  {calls : List (CapCall κ)}

/-- Lua has these capabilities, and its calls returned this. -/
structure Represents (s : LuaCalls (LuaState (CapObject κ))) (b : LuaCalls (PlainCaps κ)) : Prop where
  state : PlainCaps.Holds s.state b.state
  returned : s.returned = b.returned
  crashed : s.crashed = b.crashed

theorem Represents.step {c : CapCall κ} (h : s.Represents b) (hallowed : PlainCaps.Allowed s c) :
    Option.Rel Represents (s.step (Cap.call E) c) (b.step (PlainCaps.call E) c) := by
  rw [LuaCalls.step, LuaCalls.step, ← h.crashed]
  split
  · exact .none
  · have hagree : PlainCaps.Agree (Cap.call E s.state c) (b.state.call E c) := h.state.call hallowed
    cases hs : Cap.call E s.state c with
    | ok r =>
      cases hb : b.state.call E c with
      | ok r' =>
        rw [hs, hb] at hagree
        exact .some ⟨hagree.2, by rw [h.returned, hagree.1], rfl⟩
      | error e =>
        rw [hs, hb] at hagree
        exact hagree.elim
    | error e =>
      cases hb : b.state.call E c with
      | ok r' =>
        rw [hs, hb] at hagree
        exact hagree.elim
      | error e' =>
        rw [hs, hb] at hagree
        obtain rfl : e = e' := hagree
        cases e with
        | error => exact .some ⟨h.state, congrArg (· ++ _) h.returned, rfl⟩
        | crash => exact .some ⟨h.state, congrArg (· ++ _) h.returned, rfl⟩

theorem step_change {c : CapCall κ} (h : b.step (PlainCaps.call E) c = some b') :
    PlainCaps.Change b.state c b'.state := by
  rw [LuaCalls.step] at h
  split at h
  · cases h
  · cases hcall : b.state.call E c with
    | ok r =>
      rw [hcall] at h
      obtain rfl := Option.some.inj h
      exact PlainCaps.call_cases hcall
    | error e =>
      rw [hcall] at h
      cases e with
      | error =>
        obtain rfl := Option.some.inj h
        exact .same
      | crash =>
        obtain rfl := Option.some.inj h
        exact .same

theorem step_crashed {c : CapCall κ} (h : b.step (PlainCaps.call E) c = some b') (hcrashed : b'.crashed = true) :
    PlainCaps.Crashes E c := by
  rw [LuaCalls.step] at h
  split at h
  · cases h
  · next hbefore =>
    cases hcall : b.state.call E c with
    | ok r =>
      rw [hcall] at h
      obtain rfl := Option.some.inj h
      cases hcrashed
    | error e =>
      rw [hcall] at h
      cases e with
      | error =>
        obtain rfl := Option.some.inj h
        exact absurd hcrashed hbefore
      | crash => exact PlainCaps.crashes_of_call hcall

theorem run_grows {allows : LuaCalls (PlainCaps κ) → CapCall κ → Prop}
    (hrun : Run (LuaCalls.step (PlainCaps.call E)) allows b calls b') :
    b.state.Grows b'.state := by
  induction hrun with
  | nil => exact ⟨List.prefix_rfl, fun _ _ ht => ht⟩
  | cons _ accepted _ ih =>
    have hfirst := (step_change accepted).grows
    exact ⟨hfirst.caps.trans ih.caps, fun i t ht => ih.types i t (hfirst.types i t ht)⟩

theorem run_given {allows : LuaCalls (PlainCaps κ) → CapCall κ → Prop} {K : κ → Prop}
    (hrun : Run (LuaCalls.step (PlainCaps.call E)) allows b calls b') (h : ∀ p ∈ b.state.caps, K p.c)
    (hgiven : ∀ c ∈ calls, ∀ k, PlainCaps.given c = some k → K k) : ∀ p ∈ b'.state.caps, K p.c := by
  induction hrun with
  | nil => exact h
  | cons _ accepted _ ih =>
    refine ih ((step_change accepted).given h (hgiven _ List.mem_cons_self)) fun c hc =>
      hgiven c (List.mem_cons_of_mem _ hc)

theorem run_crashed {allows : LuaCalls (PlainCaps κ) → CapCall κ → Prop}
    (hrun : Run (LuaCalls.step (PlainCaps.call E)) allows b calls b') (h : b.crashed = false)
    (hcrashed : b'.crashed = true) :
    ∃ c ∈ calls, PlainCaps.Crashes E c := by
  induction hrun with
  | nil =>
    rw [h] at hcrashed
    cases hcrashed
  | @cons b middle last c calls _ accepted _ ih =>
    cases hmiddle : middle.crashed with
    | true => exact ⟨c, List.mem_cons_self, step_crashed accepted hmiddle⟩
    | false =>
      obtain ⟨c', hc', hcrash⟩ := ih hmiddle hcrashed
      exact ⟨c', List.mem_cons_of_mem c hc', hcrash⟩

/-- What Lua code does with capabilities, in whatever order it calls, once all types are registered: every call returns
    what it is meant to return. A capability, once it is made, stays as it is, with a right to read and no rights but
    those of a byte; it stands for one that a call brought from the kernel; and all copies of it have one type, which
    stays as it is once it is known. -/
theorem caps_refine (castFunction : LuaVal) (methods : List (String × LuaVal)) {types : List CapType}
    (hnames : ∀ m ∈ types, m.name ≠ "void") :
    ∃ lua : LuaState (CapObject κ), Cap.startLua castFunction methods types = .ok ((), lua) ∧
      ∀ before after s s', Run (LuaCalls.step (Cap.call E)) PlainCaps.Allowed ⟨lua, [], false⟩ before s →
        Run (LuaCalls.step (Cap.call E)) PlainCaps.Allowed s after s' →
        ∃ b b', Run (LuaCalls.step (PlainCaps.call E)) (fun _ _ => True) ⟨.start lua.tables, [], false⟩ before b ∧
          Run (LuaCalls.step (PlainCaps.call E)) (fun _ _ => True) b after b' ∧ s.Represents b ∧ s'.Represents b' ∧
          b.state.Sound ∧ b.state.Grows b'.state ∧ (∀ p ∈ b.state.caps, ∃ c ∈ before, PlainCaps.given c = some p.c) ∧
          (s.crashed = true → ∃ c ∈ before, PlainCaps.Crashes E c) := by
  obtain ⟨tables, hstart, htables, -⟩ := Cap.startLua_keeps (κ := κ) (P := fun _ _ => True) castFunction methods hnames
    (fun _ => trivial) fun _ _ _ _ _ _ => trivial
  refine ⟨⟨[], tables, []⟩, hstart, fun before after s s' hbefore hafter => ?_⟩
  have hholds : PlainCaps.Holds (⟨[], tables, []⟩ : LuaState (CapObject κ)) (.start tables) :=
    ⟨rfl, (List.append_nil tables).symm, rfl, htables, nofun, nofun⟩
  have hstarts : Represents (⟨⟨[], tables, []⟩, [], false⟩ : LuaCalls (LuaState (CapObject κ)))
      ⟨.start tables, [], false⟩ :=
    ⟨hholds, rfl, rfl⟩
  obtain ⟨b, hb, hs, -⟩ := hbefore.refines (fun _ _ _ h hallowed => h.step hallowed) hstarts
  obtain ⟨b', hb', hs', -⟩ := hafter.refines (fun _ _ _ h hallowed => h.step hallowed) hs
  refine ⟨b, b', hb, hb', hs, hs', ?_, run_grows hb', ?_, ?_⟩
  · exact hb.keeps (I := fun b => b.state.Sound) (fun _ _ _ h _ hstep => h.change (step_change hstep))
      ⟨nofun, nofun, nofun⟩
  · exact run_given (K := fun k => ∃ c ∈ before, PlainCaps.given c = some k) hb nofun fun c hc k hk => ⟨c, hc, hk⟩
  · exact fun hcrashed => run_crashed hb rfl (hs.crashed ▸ hcrashed)

/-- Capabilities of the kernel as numbers. -/
def numberedCaps : CapsEnv Nat := ⟨fun _ => none, 0, fun c => c ≠ 0⟩

/-- A capability, its copy with all rights, and what the copy answers. -/
def copyCalls : List (CapCall Nat) :=
  [.registerCap 7 5, .mode [.userdata 0, .number 7], .mode [.userdata 0, .string "s"], .mode [.userdata 1]]

def copyLua : LuaState (CapObject Nat) :=
  ((Cap.startLua .nil [] [⟨"T", 5, []⟩]).toOption.map Prod.snd).getD Cap.blankLua

theorem copyCalls_run : (copyCalls.foldlM (LuaCalls.step (Cap.call numberedCaps)) ⟨copyLua, [], false⟩).map
    (fun s => (s.returned.map Except.toOption, s.crashed)) =
      some ([some [.userdata 0], some [.userdata 0], some [.userdata 1], some [.number 6]], false) := by decide +kernel

/-- Asked for the rights that it has, a capability stands for its own copy; the copy has the right to read as well. -/
theorem caps_refine_copy : ∃ lua, Cap.startLua .nil [] [⟨"T", 5, []⟩] = .ok ((), lua) ∧
    ∃ s b, Run (LuaCalls.step (Cap.call numberedCaps)) PlainCaps.Allowed ⟨lua, [], false⟩ copyCalls s ∧
      s.returned.map Except.toOption = [some [.userdata 0], some [.userdata 0], some [.userdata 1], some [.number 6]] ∧
      s.Represents b ∧ b.state.Sound := by
  have hnames : ∀ m ∈ ([⟨"T", 5, []⟩] : List CapType), m.name ≠ "void" := List.forall_mem_singleton.mpr (by decide)
  obtain ⟨lua, hlua, hcalls⟩ := caps_refine (E := numberedCaps) .nil [] hnames
  have hcopy : copyLua = lua := by
    rw [copyLua, hlua]
    rfl
  obtain ⟨s, hs, hreturned⟩ := Option.map_eq_some_iff.mp copyCalls_run
  have hrun : Run (LuaCalls.step (Cap.call numberedCaps)) PlainCaps.Allowed ⟨lua, [], false⟩ copyCalls s := by
    refine (Run.of_foldlM (hcopy ▸ hs)).mono fun lua c hc _ => ?_
    simp only [copyCalls, List.mem_cons, List.not_mem_nil, or_false] at hc
    obtain rfl | rfl | rfl | rfl := hc <;> trivial
  obtain ⟨b, b', -, -, hb, -, hsound, -⟩ := hcalls copyCalls [] s s hrun (.nil s)
  exact ⟨lua, hlua, s, b, hrun, congrArg Prod.fst hreturned, hb, hsound⟩

end LuaCalls

end Dom0
