/-!
# Keys and values

Values of several kinds share one cache.  A value remembers its kind, and a reader names the kind
it expects.
-/

namespace TtlCache

/-- Keys are texts, compared as they are. -/
abbrev Key := String

inductive Kind where
  | string
  | u32
  | u64
  | i64
  | bool
  | unit
  | list
  deriving DecidableEq, Repr

def Kind.name : Kind -> String
  | .string => "alloc::string::String"
  | .u32 => "u32"
  | .u64 => "u64"
  | .i64 => "i64"
  | .bool => "bool"
  | .unit => "()"
  | .list => "alloc::vec::Vec<alloc::string::String>"

inductive Value where
  | string (text : String)
  | u32 (number : UInt32)
  | u64 (number : UInt64)
  | i64 (number : Int64)
  | bool (flag : Bool)
  | unit
  | list (texts : List String)
  deriving DecidableEq, Repr

def Value.kind : Value -> Kind
  | .string _ => .string
  | .u32 _ => .u32
  | .u64 _ => .u64
  | .i64 _ => .i64
  | .bool _ => .bool
  | .unit => .unit
  | .list _ => .list

end TtlCache
