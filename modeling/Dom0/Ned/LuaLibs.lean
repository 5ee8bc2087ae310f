import Dom0.Lib.Chains

/-! # Parts of the Lua interface

`Lua::Lib` of `dom0-ned/server/src/lua.h` and `lua.cc`. Every part is a static object that puts itself on the list
`_lua_init` when it is constructed; the language leaves open in which order that is. `run_init` then initializes all of
them. -/

namespace Dom0

/-- `Lib::Prio`. -/
inductive LibPrio
  | capType
  | env
deriving DecidableEq, Repr

def LibPrio.value : LibPrio → Nat
  | .capType => 0
  | .env => 1

instance : LinearOrder LibPrio :=
  LinearOrder.lift' LibPrio.value fun p q h => by cases p <;> cases q <;> first | rfl | cases h

/-- All parts: `_prio` of each, and `_lua_init` with the `_next` of each. -/
structure LuaLibs (α : Type) where
  prio : α → LibPrio
  parts : Chain α

namespace LuaLibs
variable {α ℓ : Type}

/-- Memory of static objects is zero before the first of them is constructed. -/
def zeroed : LuaLibs α := ⟨fun _ => .capType, ⟨none, fun _ => none⟩⟩

/-- The constructor `Lib`, with so many rounds of its loop at most. -/
def construct [DecidableEq α] (rounds : Nat) (s : LuaLibs α) (this : α) (prio : LibPrio) : Option (LuaLibs α) :=
  let s : LuaLibs α := ⟨Function.update s.prio this prio, s.parts.put (.next this) none⟩
  (s.parts.find (fun c => s.prio c < prio) rounds .head).map fun f => { s with parts := s.parts.link f this }

/-- Parts are constructed one after the other. -/
def constructAll [DecidableEq α] (rounds : Nat) : LuaLibs α → List (α × LibPrio) → Option (LuaLibs α)
  | s, [] => some s
  | s, (this, prio) :: order => (s.construct rounds this prio).bind fun s => constructAll rounds s order

/-- The loop of `run_init` from a part on. -/
def runInitFrom (s : LuaLibs α) (init : α → ℓ → ℓ) : Nat → Option α → ℓ → Option ℓ
  | _, none, l => some l
  | 0, some _, _ => none
  | rounds + 1, some c, l => runInitFrom s init rounds (s.parts.next c) (init c l)

/-- `run_init`. -/
def runInit (s : LuaLibs α) (init : α → ℓ → ℓ) (rounds : Nat) (l : ℓ) : Option ℓ :=
  s.runInitFrom init rounds s.parts.head l

end LuaLibs
end Dom0
