import RakeLang.Span

/-!
# Types

The types of the language as the syntax writes them.  A lane holds a scalar or a small vector
or matrix; a rack is one such value for every lane; stacks, singles and packs are named records
seen as many, as one, or as a bundle.

## Main definitions

* `RakeLang.PrimitiveType`, `RakeLang.CompoundType`, `RakeLang.LaneType` — the types of a lane.
* `RakeLang.DataType` — the syntax tree of a type.
-/

set_option relaxedAutoImplicit false
set_option autoImplicit false

namespace RakeLang

/-! ## Types of a lane -/

/-- The scalar types of a lane. -/
inductive PrimitiveType where
  | float | double | int | int8 | int16 | int64 | uint | uint8 | uint16 | uint64 | bool
  deriving DecidableEq, Repr

namespace PrimitiveType

/-- All scalar types. -/
def all : List PrimitiveType :=
  [float, double, int, int8, int16, int64, uint, uint8, uint16, uint64, bool]

/-- The word that a source writes for the type. -/
def word : PrimitiveType → String
  | float => "float" | double => "double" | int => "int" | int8 => "int8" | int16 => "int16"
  | int64 => "int64" | uint => "uint" | uint8 => "uint8" | uint16 => "uint16"
  | uint64 => "uint64" | bool => "bool"

/-- The name of the type in a syntax tree. -/
def name : PrimitiveType → String
  | float => "Float" | double => "Double" | int => "Int" | int8 => "Int8" | int16 => "Int16"
  | int64 => "Int64" | uint => "Uint" | uint8 => "Uint8" | uint16 => "Uint16"
  | uint64 => "Uint64" | bool => "Bool"

/-- The type that a word names. -/
def ofWord? (word : String) : Option PrimitiveType := all.find? fun t => t.word == word

end PrimitiveType

/-- The vector and matrix types of a lane. -/
inductive CompoundType where
  | vec2 | vec3 | vec4 | mat3 | mat4
  deriving DecidableEq, Repr

namespace CompoundType

/-- All vector and matrix types. -/
def all : List CompoundType := [vec2, vec3, vec4, mat3, mat4]

/-- The word that a source writes for the type. -/
def word : CompoundType → String
  | vec2 => "vec2" | vec3 => "vec3" | vec4 => "vec4" | mat3 => "mat3" | mat4 => "mat4"

/-- The name of the type in a syntax tree. -/
def name : CompoundType → String
  | vec2 => "Vec2" | vec3 => "Vec3" | vec4 => "Vec4" | mat3 => "Mat3" | mat4 => "Mat4"

/-- The type that a word names. -/
def ofWord? (word : String) : Option CompoundType := all.find? fun t => t.word == word

end CompoundType

/-- The types of a lane. -/
inductive LaneType where
  | primitive (type : PrimitiveType)
  | compound (type : CompoundType)
  deriving DecidableEq, Repr

namespace LaneType

/-- The word that a source writes for the type. -/
def word : LaneType → String
  | primitive t => t.word
  | compound t => t.word

/-- The type that a word names. -/
def ofWord? (word : String) : Option LaneType :=
  ((PrimitiveType.ofWord? word).map primitive).or ((CompoundType.ofWord? word).map compound)

end LaneType

/-! ## Syntax trees -/

/-- The syntax tree of a type. -/
inductive DataType where
  /-- One value, such as `float` or `vec3`. -/
  | lane (type : LaneType) (span : Span)
  /-- One value for every lane, such as `float rack`. -/
  | rack (type : LaneType) (span : Span)
  | stack (name : String) (span : Span)
  | single (name : String) (span : Span)
  | pack (name : String) (span : Span)
  | mask (span : Span)
  | function (params : List DataType) (result : DataType) (span : Span)
  | tuple (items : List DataType) (span : Span)
  | unit (span : Span)
  deriving Repr

/-- Where the type stands. -/
def DataType.span : DataType → Span
  | lane _ span | rack _ span | stack _ span | single _ span | pack _ span | mask span
  | function _ _ span | tuple _ span | unit span => span

end RakeLang
