import Dom0.Ned.LuaCap
import Dom0.Lib.LengthPrefixed

/-! # Names of classes

`mangle_class` and `get_cap_class` of `dom0-ned/server/src/ned.lua`: the script names the types of capabilities as a C++
program does, while they are registered under the names that the compiler makes of them. The characters of a string
stand for its bytes. -/

namespace Dom0
open LuaFun

/-- `:` and what `%s` stands for. -/
def isSeparator (c : Char) : Bool := c = ':' || c = ' ' || ('\t' ≤ c && c ≤ '\r')

/-- `string.gmatch(n, "([^:%s]+)")`. -/
def classParts (n : String) : List (List Char) := (n.toList.splitOnP isSeparator).filter fun i => i ≠ []

/-- `mangle_class`. -/
def mangleClass (n : String) : String :=
  let m := (classParts n).foldl (fun m i => m ++ (toString i.length).toList ++ i) ['N']
  String.ofList (m ++ ['E'])

namespace Cap
variable {κ : Type}

/-- `_CAP_TYPES[key]`. -/
def capType (key : LuaVal) : CapFun κ LuaVal := do
  getCapCastTable
  push key
  gettable (.top 2)
  let v ← popped
  pop 1
  return v

/-- `get_cap_class`. -/
def getCapClass (id : LuaVal) : CapFun κ LuaVal :=
  match id with
  | .number _ => capType id
  | .string n => capType (.string (mangleClass n))
  | _ => return .nil

end Cap

/-- A class name whose parts do not begin with a digit. -/
def PlainName (n : String) : Prop := ∀ i ∈ classParts n, LengthPrefixed.Plain i

instance (n : String) : Decidable (PlainName n) :=
  inferInstanceAs (Decidable (∀ i ∈ classParts n, LengthPrefixed.Plain i))

/-- A type of capabilities, under the name that is made of its class. -/
structure NamedType where
  className : String
  type : CapType
  plain : PlainName className
  name : type.name = mangleClass className

end Dom0
