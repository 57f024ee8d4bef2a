import CilProfiler.Text.Hex

/-! # Metadata tokens

A token is a 32 bit word: the number of a metadata table in the high byte and a row id in the
low 24 bits. The all-zero token is the null token and never names a row.
-/

namespace CilProfiler

/-- Metadata table a token can point into. -/
inductive MetadataTable where
  | module
  | typeRef
  | typeDef
  | field
  | method
  | param
  | memberRef
  | signature
  | typeSpec
  | methodSpec
  | string
  deriving Repr, DecidableEq

namespace MetadataTable

def all : List MetadataTable :=
  [.module, .typeRef, .typeDef, .field, .method, .param, .memberRef, .signature, .typeSpec,
    .methodSpec, .string]

def number : MetadataTable → UInt8
  | .module => 0x00
  | .typeRef => 0x01
  | .typeDef => 0x02
  | .field => 0x04
  | .method => 0x06
  | .param => 0x08
  | .memberRef => 0x0A
  | .signature => 0x11
  | .typeSpec => 0x1B
  | .methodSpec => 0x2B
  | .string => 0x70

def ofNumber? (number : UInt8) : Option MetadataTable :=
  all.find? (·.number == number)

def name : MetadataTable → String
  | .module => "Module"
  | .typeRef => "TypeRef"
  | .typeDef => "TypeDef"
  | .field => "Field"
  | .method => "Method"
  | .param => "Param"
  | .memberRef => "MemberRef"
  | .signature => "Signature"
  | .typeSpec => "TypeSpec"
  | .methodSpec => "MethodSpec"
  | .string => "String"

end MetadataTable

structure Token where
  raw : UInt32
  deriving Repr, DecidableEq

namespace Token

/-- Row ids take the low 24 bits of a token. -/
def rowIds : UInt32 := 0x01000000

/-- Token of a row of a table; only the low 24 bits of the row id are kept. -/
def ofRow (table : MetadataTable) (row : UInt32) : Token :=
  ⟨table.number.toUInt32 * rowIds + row % rowIds⟩

def row (token : Token) : UInt32 :=
  token.raw % rowIds

/-- Table the token points into, if its high byte is the number of a known one. -/
def table? (token : Token) : Option MetadataTable :=
  MetadataTable.ofNumber? (token.raw / rowIds).toUInt8

/-- The null token names no row. -/
def isNull (token : Token) : Bool :=
  token.raw == 0

def text (token : Token) : String :=
  "0x" ++ Hex.padded 8 token.raw.toNat

end Token
end CilProfiler
