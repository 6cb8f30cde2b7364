/-
  Ddm.Registry.Json — what the agent and the provider use of `cJSON.c`: the tree
  `cJSON_Parse` returns and the lookups on it. The text-to-tree parser itself is a
  parameter of everything above (`Parse`): nothing here depends on how it reads a text.

  A lookup that finds nothing is a NULL `cJSON *`, here `none`; reading a member through
  it is a crash, which the callers' models show as `none` of their own.
-/

import Ddm.Registry.UrlCodec

namespace Ddm.Registry.Json

open Ddm.Lib

inductive Item where
  | null
  | bool (b : Bool)
  | number (valueint : Int)
  | string (valuestring : CStr)
  | array (items : List Item)
  | object (members : List (CStr × Item))

/-- `cJSON_Parse`. -/
abbrev Parse := CStr → Option Item

/-- `item->child` and its `next`s, each with its `string` (NULL in an array). -/
def children : Item → List (Option CStr × Item)
  | .array items => items.map (none, ·)
  | .object members => members.map fun m => (some m.1, m.2)
  | _ => []

/-- `cJSON_strcasecmp(s1, s2) == 0`. -/
def strcaseeq : Option CStr → CStr → Bool
  | none, _ => false
  | some a, b => a.chars.map UrlCodec.tolower == b.chars.map UrlCodec.tolower

def getObjectItem (object : Item) (name : CStr) : Option Item :=
  ((children object).find? fun c => strcaseeq c.1 name).map (·.2)

/-- The items `cJSON_GetArrayItem` gives at 0, …, `cJSON_GetArraySize` - 1. -/
def arrayItems (array : Item) : List Item := (children array).map (·.2)

/-- `item->valuestring`; NULL unless the item is a string. -/
def valuestring : Item → Option CStr
  | .string s => some s
  | _ => none

/-- `item->valueint`. -/
def valueint : Item → Int
  | .number n => n
  | .bool true => 1
  | _ => 0

end Ddm.Registry.Json
