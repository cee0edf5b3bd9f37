/-!
# Widths in bytes

A `Width` counts the bytes of a value. No value has zero bytes, so `Width.ofBytes?` refuses zero.
-/

namespace DecodeTables

/-- A positive number of bytes. -/
structure Width where
  bytes : Nat
  pos : 0 < bytes
deriving DecidableEq, Repr

namespace Width

/-- The width of `bytes` bytes, or `none` for zero. -/
def ofBytes? (bytes : Nat) : Option Width :=
  if h : 0 < bytes then some ⟨bytes, h⟩ else none

/-- The number of bytes in decimal digits. -/
def text (width : Width) : String :=
  toString width.bytes

end Width

end DecodeTables
