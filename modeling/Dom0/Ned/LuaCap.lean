import Dom0.Ipc
import Dom0.Lib.LuaStack

/-! # Capabilities in Lua

`Lua::Cap` of `dom0-ned/server/src/lua_cap.h` and `lua_cap.cc`, with the functions of `lua_env.cc`, `lua_factory.cc` and
`lua_ns.cc` that make capabilities of Lua from those of the kernel. The type of a capability is a table of methods; it
is kept under 0 in the environment of the userdata, which copies of the capability share. -/

namespace Dom0
open LuaFun

/-- `CAST_TABLE`. -/
def castTable : String := "_CAP_TYPES"

/-- `package` of `lua.h`. -/
def luaPackage : String := "L4"

/-- `L4_FPAGE_RO` and `L4_CAP_FPAGE_R`. -/
def l4FpageRo : BitVec 8 := 4

def l4CapFpageW : BitVec 8 := 1
def l4CapFpageS : BitVec 8 := 2
def l4CapFpageD : BitVec 8 := 8
def l4CapFpageRws : BitVec 8 := 7
def l4Enoent : Int := 2

/-- A `Cap`: `_c`, `_rights` and `_flags`. -/
structure CapObject (κ : Type) where
  c : κ
  rights : BitVec 16
  flags : BitVec 16
deriving DecidableEq

namespace CapObject
variable {κ : Type}

/-- The constructor. -/
def new (c : κ) : CapObject κ := ⟨c, l4FpageRo.setWidth 16, 0⟩

def set (c : κ) (o : CapObject κ) : CapObject κ := { o with c }

def setRights (r : BitVec 8) (o : CapObject κ) : CapObject κ := { o with rights := (r ||| l4FpageRo).setWidth 16 }

/-- `rights()`. -/
def lowRights (o : CapObject κ) : BitVec 16 := o.rights &&& 0xf

end CapObject

/-- What is registered for a type of kernel objects: its name and protocol, and its methods. -/
structure CapType where
  name : String
  proto : Int
  methods : List (String × LuaVal)

/-- What the functions rest on: `tonumber` of Lua for strings, the invalid capability, and whether one is valid. -/
structure CapsEnv (κ : Type) where
  tonumber : String → Option Int
  invalid : κ
  isValid : κ → Bool

/-- The number that a value is or can be made, as `lua_isnumber` and `lua_tointeger` see it. -/
def CapsEnv.number? {κ : Type} (E : CapsEnv κ) : LuaVal → Option Int
  | .number n => some n
  | .string s => E.tonumber s
  | _ => none

namespace Cap
variable {κ : Type}

/-- A function of the source, with the number of results or another value that it returns. -/
abbrev CapFun (κ α : Type) := LuaFun (CapObject κ) α

/-- `check_cap`. -/
def checkCap (i : LuaIdx) : CapFun κ Nat := checkudata i

def getCapCastTable : CapFun κ Unit := do
  getglobal luaPackage
  getfield (.top 1) castTable
  remove (.top 2)

def getMethodTable (typ : String) : CapFun κ Unit := do
  getCapCastTable
  getfield (.top 1) typ
  remove (.top 2)

/-! ### New capabilities -/

/-- `push_void_cap`. -/
def pushVoidCap (E : CapsEnv κ) : CapFun κ Nat := do
  let c ← newuserdata (.new E.invalid)
  newtable
  setfenv (.top 2)
  return c

/-- `push_new_cap`. -/
def pushNewCap (E : CapsEnv κ) (voidCap : Bool) : CapFun κ (Option Nat) := do
  let frame ← gettop
  getCapCastTable
  pushvalue (.bottom frame)
  remove (.bottom frame)
  gettable (.bottom frame)
  remove (.bottom frame)
  let typ ← value (.bottom frame)
  let nc ← if typ ≠ .nil ∨ voidCap then some <$> pushVoidCap E else pure none
  if typ ≠ .nil then
    getfenv (.bottom (frame + 1))
    pushvalue (.bottom frame)
    rawseti (.top 2) 0
    pop 1
  remove (.bottom frame)
  return nc

/-- `clone`. -/
def clone (n : Nat) : CapFun κ Nat := do
  let d ← deref n
  newuserdata d.object

/-! ### The methods of all capabilities -/

/-- `__set_rights`. -/
def setRights (r : BitVec 32) : CapFun κ Nat := do
  let n ← checkCap (.bottom 1)
  let d ← deref n
  if d.object.rights.setWidth 32 = r then
    pushvalue (.bottom 1)
    return n
  else
    let t ← clone n
    modifyObject t (.setRights (r.setWidth 8))
    getfenv (.bottom 1)
    setfenv (.top 2)
    return t

/-- The right that a letter stands for. -/
def letterRights : Char → BitVec 8
  | 'r' | 'R' => l4FpageRo
  | 'w' | 'W' => l4CapFpageW
  | 's' | 'S' => l4CapFpageS
  | 'd' | 'D' => l4CapFpageD
  | 'n' | 'N' => 0x10
  | 'c' | 'C' => 0x20
  | _ => 0

/-- The rights that the letters of a string stand for, up to its first zero byte. -/
def stringRights (s : String) : BitVec 32 :=
  (s.toList.takeWhile (· ≠ '\x00')).foldl (fun rights r => rights ||| (letterRights r).setWidth 32)
    (l4FpageRo.setWidth 32)

/-- The rights that the argument of `mode` stands for. Where it is neither a number nor a string, `lua_tostring` gives a
    null pointer, and its first character is read. -/
def argumentRights (E : CapsEnv κ) : LuaVal → Except LuaFault (BitVec 32)
  | .number n => .ok (BitVec.ofInt 32 n)
  | .string s => .ok ((E.tonumber s).elim (stringRights s) (BitVec.ofInt 32))
  | _ => .error .crash

/-- `__set_mode_call`, which is `mode`, `m` and `rights`. -/
def setModeCall (E : CapsEnv κ) : CapFun κ Nat := do
  let arg ← valueAt (.bottom 2)
  match arg with
  | none | some .nil =>
    let c ← checkCap (.bottom 1)
    let d ← deref c
    push (.number d.object.lowRights.toNat)
    return 1
  | some arg =>
    let r ← fun s => (argumentRights E arg).map (·, s)
    let _ ← setRights r
    return 1

/-- `__full`, which is `svr`. -/
def full : CapFun κ Nat := do
  let _ ← setRights 0xef
  return 1

/-- `is_valid`. -/
def isValid (E : CapsEnv κ) : CapFun κ Nat := do
  let n ← checkCap (.bottom 1)
  let d ← deref n
  push (.boolean (E.isValid d.object.c))
  return 1

/-! ### Types -/

/-- `Cap::find_dynamic_type`, given the name that the kernel object answers with, if it does. -/
def findDynamicType (name : Option String) : CapFun κ Bool :=
  match name with
  | none => return false
  | some name => do
    getMethodTable name
    let typ ← value (.top 1)
    if typ = .nil then
      -- `lua_pop(l, -1)`
      settop 0
      return false
    else return true

/-- `__index` and `Cap::index`. -/
def index (name : Option String) : CapFun κ Nat := do
  let _ ← checkCap (.bottom 1)
  getMethodTable "void"
  pushvalue (.bottom 2)
  gettable (.top 2)
  let v ← value (.top 1)
  if v ≠ .nil then return 1
  else
    pop 2
    getfenv (.bottom 1)
    rawgeti (.top 1) 0
    let typ ← value (.top 1)
    if typ ≠ .nil then
      pushvalue (.bottom 2)
      gettable (.top 2)
      return 1
    else
      pop 1
      let found ← findDynamicType name
      if found then
        pushvalue (.top 1)
        rawseti (.top 3) 0
        pushvalue (.bottom 2)
        gettable (.top 2)
        return 1
      else return 0

/-- `Cap::assign`. -/
def assign (nc o : Nat) : CapFun κ Unit := do
  if o = nc then return ()
  else
    let d ← deref o
    modifyObject nc fun n => { n with c := d.object.c, rights := d.object.rights }

/-- `__cast`, from the check of its second argument on. -/
def castArgument (E : CapsEnv κ) : CapFun κ Nat := do
  let c ← checkCap (.bottom 2)
  pushvalue (.bottom 1)
  match ← pushNewCap E false with
  | some nc =>
    assign nc c
    return 1
  | none =>
    push .nil
    return 1

/-- `__cast`, given what the second argument returns if it is a function. -/
def cast (E : CapsEnv κ) (called : LuaVal) : CapFun κ Nat := do
  let top ← gettop
  if 2 < top then (fun _ => .error .error)
  else
    match ← valueAt (.bottom 2) with
    | some (.function _) =>
      pop 1
      push called
      castArgument E
    | _ => castArgument E

/-! ### Capabilities from the kernel -/

/-- `register_cap` of `lua_env.cc`, up to the table that gets the capability. -/
def registerCap (E : CapsEnv κ) (i : κ) (proto : Int) : CapFun κ Nat := do
  push (.number proto)
  match ← pushNewCap E true with
  | none => fun _ => .error .crash
  | some c =>
    modifyObject c (.set i)
    modifyObject c (.setRights l4CapFpageRws)
    return 1

/-- `luaL_checkint`, before the number is cut to an `int`. -/
def checkint (E : CapsEnv κ) (v : Option LuaVal) : CapFun κ Int :=
  match v.bind E.number? with
  | some n => fun s => .ok (n, s)
  | none => fun _ => .error .error

/-- `__alloc` of `lua_factory.cc`, given the capability slot and the result of `create`. -/
def alloc (E : CapsEnv κ) (obj : Option κ) (r : Int) : CapFun κ Nat := do
  let _ ← checkCap (.bottom 1)
  let objt ← valueAt (.bottom 2) >>= checkint E
  match obj with
  | none => fun _ => .error .error
  | some obj =>
    if r < 0 then (fun _ => .error .error)
    else
      push (.number (BitVec.ofInt 32 objt).toInt)
      match ← pushNewCap E true with
      | none => fun _ => .error .crash
      | some nc =>
        modifyObject nc (.set obj)
        return 1

/-- `__lookup` of `lua_ns.cc`, given its first and its third upvalue, the capability slot and the result of `query`. -/
def lookup (E : CapsEnv κ) (ns rights : LuaVal) (obj : Option κ) (r : Int) : CapFun κ Nat := do
  let _ ← checkudataOf (some ns)
  match obj with
  | none => fun _ => .error .error
  | some obj =>
    if r = -l4Enoent then
      push .nil
      return 1
    else if r < 0 then (fun _ => .error .error)
    else
      let no ← pushVoidCap E
      modifyObject no (.set obj)
      modifyObject no (.setRights (BitVec.ofInt 8 ((E.number? rights).getD 0)))
      return 1

/-! ### Registering types -/

/-- `luaL_register` into the table at the top. -/
def registerMethods (methods : List (String × LuaVal)) : CapFun κ Unit :=
  methods.forM fun m => do
    push m.2
    setfield (.top 2) m.1

/-- `Cap::get_class`. -/
def getClass : CapFun κ Unit := do
  getCapCastTable
  getfield (.top 1) "void"
  remove (.top 2)

/-- `Cap::add_class_metatable`. -/
def addClassMetatable : CapFun κ Unit := do
  newtable
  getClass
  setfield (.top 2) "__index"
  setmetatable (.top 2)

/-- `Cap::create_class`. -/
def createClass (rm : CapFun κ Unit) (type : String) : CapFun κ Unit := do
  newtable
  rm
  push (.string type)
  setfield (.top 2) "_CLASS_NAME"

/-- `register_cap_type`. -/
def registerCapType (m : CapType) : CapFun κ Unit := do
  getCapCastTable
  createClass (do registerMethods m.methods; addClassMetatable) m.name
  if m.proto ≠ 0 then
    push (.number m.proto)
    pushvalue (.top 2)
    settable (.top 4)
  setfield (.top 2) m.name
  pop 1

/-- `init_lua_cap`, given the functions that it registers. -/
def initLuaCap (castFunction : LuaVal) (methods : List (String × LuaVal)) : CapFun κ Unit := do
  getglobal luaPackage
  push castFunction
  setfield (.top 2) "cast"
  newtable
  setfield (.top 2) castTable
  getCapCastTable
  createClass (registerMethods methods) "void"
  setfield (.top 2) "void"
  pop 2

/-- Lua before `init_lua_cap`, with the global `L4`, which `luaL_register` makes if it is not there. -/
def blankLua : LuaState (CapObject κ) where
  stack := []
  tables := [⟨fun key => if key = .string luaPackage then .table 1 else .nil, none⟩, .empty]
  userdata := []

/-- Lua when all types are registered. -/
def startLua (castFunction : LuaVal) (methods : List (String × LuaVal)) (types : List CapType) :
    Except LuaFault (Unit × LuaState (CapObject κ)) :=
  (do initLuaCap castFunction methods; types.forM registerCapType : CapFun κ Unit) blankLua

end Cap

/-! ### Calls from Lua -/

/-- A call from Lua with its arguments and what other functions and the kernel return in it, a capability that Ned
    itself puts into Lua, or a field that Lua sets in the table of a type. -/
inductive CapCall (κ : Type)
  | isValid (args : List LuaVal)
  | mode (args : List LuaVal)
  | full (args : List LuaVal)
  | index (args : List LuaVal) (name : Option String)
  | cast (args : List LuaVal) (called : LuaVal)
  | create (args : List LuaVal) (obj : Option κ) (r : Int)
  | lookup (ns rights : LuaVal) (obj : Option κ) (r : Int)
  | registerCap (i : κ) (proto : Int)
  | setField (t : Nat) (key v : LuaVal)

/-- What Lua gets from a call. -/
abbrev CapResult := Except LuaFault (List LuaVal)

namespace Cap
variable {κ : Type}

/-- A function is called with these values on its stack. -/
def callFun (f : CapFun κ Nat) (args : List LuaVal) (lua : LuaState (CapObject κ)) :
    Except LuaFault (List LuaVal × LuaState (CapObject κ)) :=
  (f { lua with stack := args.reverse }).map fun r => ((r.2.stack.take r.1).reverse, { r.2 with stack := [] })

def call (E : CapsEnv κ) (lua : LuaState (CapObject κ)) : CapCall κ →
    Except LuaFault (List LuaVal × LuaState (CapObject κ))
  | .isValid args => callFun (isValid E) args lua
  | .mode args => callFun (setModeCall E) args lua
  | .full args => callFun full args lua
  | .index args name => callFun (index name) args lua
  | .cast args called => callFun (cast E called) args lua
  | .create args obj r => callFun (alloc E obj r) args lua
  | .lookup ns rights obj r => callFun (lookup E ns rights obj r) [] lua
  | .registerCap i proto => callFun (registerCap E i proto) [] lua
  | .setField t key v => (LuaFun.setField t key v lua).map fun r => ([], r.2)

end Cap

/-- A state, and what the calls returned so far. A function that raises an error changes nothing before; nothing comes
    after a crash. -/
structure LuaCalls (σ : Type) where
  state : σ
  returned : List CapResult
  crashed : Bool

def LuaCalls.step {σ γ : Type} (call : σ → γ → Except LuaFault (List LuaVal × σ)) (s : LuaCalls σ) (c : γ) :
    Option (LuaCalls σ) :=
  if s.crashed then none
  else match call s.state c with
    | .ok (values, state) => some ⟨state, s.returned ++ [.ok values], false⟩
    | .error .error => some { s with returned := s.returned ++ [.error .error] }
    | .error .crash => some { s with returned := s.returned ++ [.error .crash], crashed := true }

end Dom0
