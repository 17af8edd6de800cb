/-! # Shapes: how values are laid out

A scalar has one of eight widths. A composite value has a shape: a name, perhaps a parent whose
members come first, and its own members, each a scalar stored in place or a reference to another
value. Shapes have an identity of their own, so a shape carries a tag, and two shapes that look
alike are two shapes when their tags differ. -/

namespace ShuffleBuffer.Estimate

/-- The widths in which scalars are stored. -/
inductive PrimitiveKind where
  | bool
  | byte
  | short
  | char
  | int
  | float
  | long
  | double
  deriving DecidableEq

namespace PrimitiveKind

/-- The bytes one scalar of this kind takes. -/
def width : PrimitiveKind → UInt64
  | bool | byte => 1
  | short => 2
  | char | int | float => 4
  | long | double => 8

def name : PrimitiveKind → String
  | bool => "Bool"
  | byte => "Byte"
  | short => "Short"
  | char => "Char"
  | int => "Int"
  | float => "Float"
  | long => "Long"
  | double => "Double"

def all : List PrimitiveKind := [bool, byte, short, char, int, float, long, double]

end PrimitiveKind

/-- The types whose values are scalars. -/
inductive ScalarType where
  | bool
  | u8
  | i8
  | u16
  | i16
  | char
  | u32
  | i32
  | f32
  | u64
  | i64
  | usize
  | isize
  | f64
  deriving DecidableEq

namespace ScalarType

def kind : ScalarType → PrimitiveKind
  | bool => .bool
  | u8 | i8 => .byte
  | u16 | i16 => .short
  | char => .char
  | u32 | i32 => .int
  | f32 => .float
  | u64 | i64 | usize | isize => .long
  | f64 => .double

def name : ScalarType → String
  | bool => "bool"
  | u8 => "u8"
  | i8 => "i8"
  | u16 => "u16"
  | i16 => "i16"
  | char => "char"
  | u32 => "u32"
  | i32 => "i32"
  | f32 => "f32"
  | u64 => "u64"
  | i64 => "i64"
  | usize => "usize"
  | isize => "isize"
  | f64 => "f64"

def all : List ScalarType :=
  [bool, u8, i8, u16, i16, char, u32, i32, f32, u64, i64, usize, isize, f64]

end ScalarType

inductive FieldKind where
  /-- Stored in place. -/
  | primitive (kind : PrimitiveKind)
  /-- Leads to a value of its own. -/
  | reference
  deriving DecidableEq

structure Field where
  name : String
  kind : FieldKind
  deriving DecidableEq

/-- What tells one shape from another that looks the same. -/
inductive ShapeTag where
  | builtIn (index : Nat)
  | declared (index : Nat)
  deriving DecidableEq

inductive Shape where
  | root (tag : ShapeTag) (name : String) (fields : List Field)
  | extending (tag : ShapeTag) (name : String) (parent : Shape) (fields : List Field)
  deriving DecidableEq

namespace Shape

def name : Shape → String
  | root _ name _ => name
  | extending _ name _ _ => name

/-- The shape's ancestors from the root on, and then the shape itself. -/
def chain : Shape → List Shape
  | s@(root ..) => [s]
  | s@(extending _ _ parent _) => parent.chain ++ [s]

/-- The members that the shape itself declares. -/
def ownFields : Shape → List Field
  | root _ _ fields => fields
  | extending _ _ _ fields => fields

/-- The members of the whole chain, ancestors first. -/
def fields (s : Shape) : List Field := s.chain.flatMap ownFields

/-- The shape of values that take no room of their own. -/
def unit : Shape := root (.builtIn 0) "Unit" []

end Shape

/-- What a value is to the estimator. -/
inductive Kind where
  | object (shape : Shape)
  | primitive (kind : PrimitiveKind)
  | sequence
  | pointer
  | metadata
  deriving DecidableEq

def Kind.label : Kind → String
  | object shape => "Object:" ++ shape.name
  | primitive kind => "Primitive:" ++ kind.name
  | sequence => "Sequence"
  | pointer => "Pointer"
  | metadata => "Metadata"

end ShuffleBuffer.Estimate
