import Mathlib.Data.List.Basic

/-! # Functions that Lua calls

The part of the C interface of Lua that such a function needs: values on its stack, tables, and userdata with an
environment. A table can have a metatable with a table as `__index`. -/

/-- A value of Lua. Tables, functions and userdata are references. -/
inductive LuaVal
  | nil
  | boolean (b : Bool)
  | number (n : Int)
  | string (s : String)
  | function (f : Nat)
  | table (t : Nat)
  | userdata (v : Nat)
deriving DecidableEq

def LuaVal.table? : LuaVal → Option Nat
  | .table t => some t
  | _ => none

structure LuaTable where
  raw : LuaVal → LuaVal
  index : Option Nat

def LuaTable.empty : LuaTable := ⟨fun _ => .nil, none⟩

structure LuaUserdata (υ : Type) where
  object : υ
  env : Nat
deriving DecidableEq

/-- The stack of a function, its top first, and what the values on it refer to. -/
structure LuaState (υ : Type) where
  stack : List LuaVal
  tables : List LuaTable
  userdata : List (LuaUserdata υ)

/-- How a function ends before it returns: by an error of Lua, or in a way that nothing is said about. -/
inductive LuaFault
  | error
  | crash
deriving DecidableEq

/-- A function that works on the stack. -/
abbrev LuaFun (υ : Type) := StateT (LuaState υ) (Except LuaFault)

/-- An index, counted from the bottom of the stack or from its top. -/
inductive LuaIdx
  | bottom (i : Nat)
  | top (k : Nat)

namespace LuaIdx

/-- The value at an index of a stack. -/
def read (stack : List LuaVal) : LuaIdx → Option LuaVal
  | .bottom (i + 1) => stack.reverse[i]?
  | .top (k + 1) => stack[k]?
  | .bottom 0 | .top 0 => none

/-- The stack without the value at an index. -/
def erase (stack : List LuaVal) : LuaIdx → List LuaVal
  | .bottom (i + 1) => (stack.reverse.eraseIdx i).reverse
  | .top (k + 1) => stack.eraseIdx k
  | .bottom 0 | .top 0 => stack

end LuaIdx

namespace LuaFun
variable {υ : Type}

/-- `__index` is followed so many times, as in `MAXTAGLOOP`. -/
def maxTagLoop : Nat := 100

/-- A field of a table, or of the tables that `__index` leads to. -/
def field (tables : List LuaTable) (key : LuaVal) : Nat → Nat → Except LuaFault LuaVal
  | 0, _ => .error .error
  | loops + 1, t =>
    match tables[t]? with
    | none => .error .crash
    | some table =>
      match table.raw key, table.index with
      | .nil, some t => field tables key loops t
      | v, _ => .ok v

def gettop : LuaFun υ Nat := fun s => .ok (s.stack.length, s)

def push (v : LuaVal) : LuaFun υ Unit := fun s => .ok ((), { s with stack := v :: s.stack })

/-- The value at an index, if there is one. -/
def valueAt (i : LuaIdx) : LuaFun υ (Option LuaVal) := fun s => .ok (i.read s.stack, s)

/-- The value at an index that has to be valid. -/
def value (i : LuaIdx) : LuaFun υ LuaVal := fun s =>
  match i.read s.stack with
  | some v => .ok (v, s)
  | none => .error .crash

def pushvalue (i : LuaIdx) : LuaFun υ Unit := value i >>= push

/-- `lua_remove`, of an index that has to be valid. -/
def remove (i : LuaIdx) : LuaFun υ Unit := fun s =>
  match i.read s.stack with
  | some _ => .ok ((), { s with stack := i.erase s.stack })
  | none => .error .crash

/-- `lua_settop`, to a height that is not above the top. -/
def settop (n : Nat) : LuaFun υ Unit := fun s => .ok ((), { s with stack := s.stack.drop (s.stack.length - n) })

/-- `lua_pop`. -/
def pop (n : Nat) : LuaFun υ Unit := fun s => .ok ((), { s with stack := s.stack.drop n })

/-- The value at the top, which is popped. -/
def popped : LuaFun υ LuaVal := fun s =>
  match s.stack with
  | v :: stack => .ok (v, { s with stack })
  | [] => .error .crash

/-- The reference of a table; Lua is in error where a value of another kind is indexed. -/
def tableOf : LuaVal → LuaFun υ Nat
  | .table t => fun s => .ok (t, s)
  | _ => fun _ => .error .error

/-- A field with `__index`, as `lua_gettable` looks it up. -/
def fieldOf (t : Nat) (key : LuaVal) : LuaFun υ LuaVal := fun s => (field s.tables key maxTagLoop t).map (·, s)

/-- `lua_gettable`: the key is at the top and replaced by the field. -/
def gettable (i : LuaIdx) : LuaFun υ Unit := do
  let t ← value i >>= tableOf
  let key ← popped
  fieldOf t key >>= push

def getfield (i : LuaIdx) (name : String) : LuaFun υ Unit := do
  let t ← value i >>= tableOf
  fieldOf t (.string name) >>= push

/-- `lua_getglobal`; the globals are the first table. -/
def getglobal (name : String) : LuaFun υ Unit := fieldOf 0 (.string name) >>= push

/-- `lua_rawgeti`. -/
def rawgeti (i : LuaIdx) (n : Int) : LuaFun υ Unit := do
  let t ← value i >>= tableOf
  fun s =>
    match s.tables[t]? with
    | some table => push (table.raw (.number n)) s
    | none => .error .crash

/-- A field of a table is set, without metamethods. -/
def setRaw (key v : LuaVal) (table : LuaTable) : LuaTable :=
  { table with raw := fun k => if k = key then v else table.raw k }

def setField (t : Nat) (key v : LuaVal) : LuaFun υ Unit :=
  fun s => .ok ((), { s with tables := s.tables.modify t (setRaw key v) })

/-- `lua_rawseti`: the value is at the top and popped. -/
def rawseti (i : LuaIdx) (n : Int) : LuaFun υ Unit := do
  let t ← value i >>= tableOf
  let v ← popped
  setField t (.number n) v

/-- `lua_settable`: the value is at the top, the key below it, and both are popped. -/
def settable (i : LuaIdx) : LuaFun υ Unit := do
  let t ← value i >>= tableOf
  let v ← popped
  let key ← popped
  setField t key v

def setfield (i : LuaIdx) (name : String) : LuaFun υ Unit := do
  let t ← value i >>= tableOf
  let v ← popped
  setField t (.string name) v

def newtable : LuaFun υ Unit := fun s =>
  .ok ((), { s with stack := .table s.tables.length :: s.stack, tables := s.tables ++ [.empty] })

/-- `lua_setmetatable` of a table: the metatable is at the top and popped. Only `__index` matters here. -/
def setmetatable (i : LuaIdx) : LuaFun υ Unit := do
  let t ← value i >>= tableOf
  let metatable ← popped >>= tableOf
  fun s =>
    match s.tables[metatable]? with
    | some m =>
      let index := (m.raw (.string "__index")).table?
      .ok ((), { s with tables := s.tables.modify t fun table => { table with index } })
    | none => .error .crash

/-- `lua_newuserdata`, with the object that is constructed in it. Its environment is that of the function, the
    globals. -/
def newuserdata (object : υ) : LuaFun υ Nat := fun s =>
  let v := s.userdata.length
  .ok (v, { s with stack := .userdata v :: s.stack, userdata := s.userdata ++ [⟨object, 0⟩] })

/-- `luaL_checkudata` on a value, where all userdata are of one type. -/
def checkudataOf : Option LuaVal → LuaFun υ Nat
  | some (.userdata v) => fun s => if v < s.userdata.length then .ok (v, s) else .error .error
  | _ => fun _ => .error .error

/-- `luaL_checkudata`. -/
def checkudata (i : LuaIdx) : LuaFun υ Nat := valueAt i >>= checkudataOf

/-- A userdata, for the pointer to it. -/
def deref (v : Nat) : LuaFun υ (LuaUserdata υ) := fun s =>
  match s.userdata[v]? with
  | some d => .ok (d, s)
  | none => .error .crash

def modifyObject (v : Nat) (f : υ → υ) : LuaFun υ Unit := fun s =>
  .ok ((), { s with userdata := s.userdata.modify v fun d => { d with object := f d.object } })

/-- `lua_getfenv` of a userdata. -/
def getfenv (i : LuaIdx) : LuaFun υ Unit := do
  let d ← checkudata i >>= deref
  push (.table d.env)

/-- `lua_setfenv` of a userdata: the table is at the top and popped. -/
def setfenv (i : LuaIdx) : LuaFun υ Unit := do
  let v ← checkudata i
  let env ← popped >>= tableOf
  fun s => .ok ((), { s with userdata := s.userdata.modify v fun d => { d with env } })

/-! ### What the functions do -/

variable {α β : Type} {s : LuaState υ} {v key : LuaVal} {t : Nat} {tables more : List LuaTable}

@[simp] theorem bind_apply (x : LuaFun υ α) (f : α → LuaFun υ β) : (x >>= f) s = (x s).bind fun p => f p.1 p.2 := rfl

@[simp] theorem pure_apply (a : α) : (pure a : LuaFun υ α) s = .ok (a, s) := rfl

@[simp] theorem map_apply (f : α → β) (x : LuaFun υ α) : (f <$> x) s = (x s).map fun p => (f p.1, p.2) := by
  cases h : x s <;> simp [Functor.map, StateT.map, h, bind, Except.bind, Except.map, pure, Except.pure]

@[simp] theorem ok_bind {ε : Type} (a : α) (f : α → Except ε β) : (Except.ok a).bind f = f a := rfl

@[simp] theorem error_bind {ε : Type} (e : ε) (f : α → Except ε β) : (Except.error e).bind f = .error e := rfl

@[simp] theorem ok_map {ε : Type} (a : α) (f : α → β) : (Except.ok a : Except ε α).map f = .ok (f a) := rfl

@[simp] theorem error_map {ε : Type} (e : ε) (f : α → β) : (Except.error e : Except ε α).map f = .error e := rfl

attribute [simp] LuaIdx.read LuaIdx.erase gettop push valueAt value pushvalue remove settop pop popped tableOf gettable
  getfield getglobal rawgeti rawseti settable setfield newtable setmetatable newuserdata checkudata deref modifyObject
  getfenv setfenv setField

@[simp] theorem fieldOf_apply : fieldOf t key s = (field s.tables key maxTagLoop t).map (·, s) := rfl

/-- A field that is found in some tables is found where there are more. -/
theorem field_append {loops : Nat} (h : field tables key loops t = .ok v) :
    field (tables ++ more) key loops t = .ok v := by
  induction loops generalizing t with
  | zero => cases h
  | succ loops ih =>
    rw [field] at h ⊢
    cases htable : tables[t]? with
    | none =>
      rw [htable] at h
      cases h
    | some table =>
      have hlt := (List.getElem?_eq_some_iff.mp htable).1
      rw [htable] at h
      rw [List.getElem?_append_left hlt, htable]
      simp only at h ⊢
      split at h
      · next t' hraw hindex =>
        exact ih h
      · exact h

theorem modify_append_right {α : Type} (xs ys : List α) (n : Nat) (f : α → α) :
    (xs ++ ys).modify (xs.length + n) f = xs ++ ys.modify n f := by
  induction xs with
  | nil => rw [List.nil_append, List.nil_append, List.length_nil, Nat.zero_add]
  | cons x xs ih =>
    rw [List.cons_append, List.length_cons, Nat.add_right_comm, List.modify_succ_cons, ih, List.cons_append]

theorem modify_append_left {α : Type} {xs : List α} {n : Nat} (ys : List α) (f : α → α) (h : n < xs.length) :
    (xs ++ ys).modify n f = xs.modify n f ++ ys := by
  induction xs generalizing n with
  | nil => exact absurd h (Nat.not_lt_zero n)
  | cons x xs ih =>
    cases n with
    | zero => rfl
    | succ n => rw [List.cons_append, List.modify_succ_cons, ih (Nat.lt_of_succ_lt_succ h), List.modify_succ_cons,
        List.cons_append]

theorem modify_append_cons {α : Type} (xs ys : List α) (x : α) (f : α → α) :
    (xs ++ x :: ys).modify xs.length f = xs ++ f x :: ys :=
  modify_append_right xs (x :: ys) 0 f

theorem eraseIdx_append_cons {α : Type} {xs ys : List α} {y : α} {n : Nat} (h : xs.length = n) :
    (xs ++ y :: ys).eraseIdx n = xs ++ ys := by
  subst h
  rw [List.eraseIdx_append_of_length_le (Nat.le_refl _), Nat.sub_self, List.eraseIdx_cons_zero]

end LuaFun
