import Dom0.Ipc

/-! # Initial capabilities

`Am::push_initial_caps` and `Am::map_initial_caps` of `dom0-ned/server/src/lua_exec.cc`: `exec` goes through the table
`caps` twice, once to write the names and slots of the capabilities into the environment of the new program, and once to
map them. Both call the functions that they find in the table, which are Lua code and may do anything to it. -/

namespace Dom0

/-- A `Cap` of Lua, as `task->map` is given it: the capability, and its `rights()` and `ext_rights()`. -/
structure LuaCap (w : Word) where
  cap : ULong w
  rights : BitVec 4
  extRights : BitVec 8
deriving DecidableEq

/-- A value on the stack of Lua, by what is asked about it; `userdata` is one that is not a `Cap`. -/
inductive LuaValue (w : Word) (φ : Type)
  | nil
  | function (f : φ)
  | cap (c : LuaCap w)
  | userdata
  | other

/-- Lua, with a state `ℓ`, functions `φ`, tables `τ` and keys `κ`. `none` is an error of Lua. -/
structure CapsLua (w : Word) (ℓ φ τ κ : Type) where
  /-- `lua_getfield(_lua, _cfg_idx, "caps")`, which gives a table or nil. -/
  getCaps : ℓ → Option (ℓ × Option τ)
  /-- `lua_next` behind a key, or from the start. -/
  next : ℓ → τ → Option κ → Option (Option (κ × LuaValue w φ))
  /-- `luaL_checkstring` on a key, which makes a string of a number in place. -/
  checkstring : κ → Option (List UInt8 × κ)
  /-- `lua_call(_lua, 1, 1)`. -/
  call : ℓ → φ → τ → Option (ℓ × LuaValue w φ)

/-- What else the loader rests on: `l4re_env_cap_entry_t::is_valid_name`, whether `_stack.push` and `task->map` work
    where `n` entries went before, and what Lua's state is when the second function is called. -/
structure Launch (ℓ : Type) where
  isValidName : List UInt8 → Bool
  pushes : Nat → Bool
  maps : Nat → Bool
  between : ℓ → ℓ

/-- `L4_CAP_SHIFT`. -/
def l4CapShift : Nat := 12

/-- `L4_CAP_OFFSET`. -/
def l4CapOffset (w : Word) : ULong w := BitVec.ofNat _ (2 ^ l4CapShift)

/-- A capability that is mapped. -/
structure Mapping (w : Word) where
  name : List UInt8
  slot : ULong w
  cap : LuaCap w

namespace Am
section
variable {w : Word} {ℓ φ τ κ σ : Type} (L : CapsLua w ℓ φ τ κ)

/-- `while (lua_isfunction(_lua, -1))`, for at most `fuel` calls. -/
def callFunctions (tab : τ) : Nat → ℓ → LuaValue w φ → Option (ℓ × LuaValue w φ)
  | 0, _, _ => none
  | fuel + 1, lua, .function f => (L.call lua f tab).bind fun r => callFunctions tab fuel r.1 r.2
  | _ + 1, lua, v => some (lua, v)

/-- `while (lua_next(_lua, tab))` of both functions, for at most `fuel` entries: `check` is asked about each name, and
    `visit` is done with each capability. It ends with the state of Lua, unless an error or an exception ends it. -/
def eachCap (check : List UInt8 → Bool) (visit : σ → List UInt8 → LuaCap w → Option σ) (tab : τ) :
    Nat → ℓ → Option κ → σ → σ × Option ℓ
  | 0, _, _, s => (s, none)
  | fuel + 1, lua, key, s =>
    match L.next lua tab key with
    | none => (s, none)
    | some none => (s, some lua)
    | some (some (key, v)) =>
      match L.checkstring key with
      | none => (s, none)
      | some (r, key) =>
        if check r then
          match callFunctions L tab fuel lua v with
          | none => (s, none)
          | some (lua, .cap c) =>
            match visit s r c with
            | none => (s, none)
            | some s => eachCap check visit tab fuel lua (some key) s
          | some (_, .userdata) => (s, none)
          | some (lua, .nil) | some (lua, .other) | some (lua, .function _) => eachCap check visit tab fuel lua
              (some key) s
        else (s, none)

/-- The table is got, and gone through if it is one. -/
def withCaps (check : List UInt8 → Bool) (visit : σ → List UInt8 → LuaCap w → Option σ) (fuel : Nat) (lua : ℓ) (s : σ) :
    σ × Option ℓ :=
  match L.getCaps lua with
  | none => (s, none)
  | some (lua, none) => (s, some lua)
  | some (lua, some tab) => eachCap L check visit tab fuel lua none s

/-- `push_initial_caps(start)`: the entries that it wrote, and `start` as it leaves it. -/
def pushInitialCaps (X : Launch ℓ) (fuel : Nat) (lua : ℓ) (start : ULong w) :
    (List (List UInt8 × ULong w) × ULong w) × Option ℓ :=
  withCaps L X.isValidName
    (fun s r _ => if X.pushes s.1.length then some (s.1 ++ [(r, s.2)], s.2 + l4CapOffset w) else none) fuel lua
      ([], start)

/-- `map_initial_caps(task, start)`: what it mapped, and `start` as it leaves it. -/
def mapInitialCaps (X : Launch ℓ) (fuel : Nat) (lua : ℓ) (start : ULong w) : (List (Mapping w) × ULong w) × Option ℓ :=
  withCaps L (fun _ => true)
    (fun s r c => if X.maps s.1.length then some (s.1 ++ [⟨r, s.2, c⟩], s.2 + l4CapOffset w) else none) fuel lua
      ([], start)

end

end Am

end Dom0
