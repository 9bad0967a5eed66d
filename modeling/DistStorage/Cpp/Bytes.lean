import Mathlib

/-!
# Byte strings

A `std::string` is a list of bytes, compared lexicographically as unsigned
bytes.
-/

namespace DistStorage

abbrev Bytes := List UInt8

instance Bytes.instTransLt :
    Trans (fun a b : Bytes => a < b) (fun a b : Bytes => a < b) (fun a b : Bytes => a < b) :=
  inferInstance

/-- The bytes of an ASCII text of the source. -/
def bytes (s : String) : Bytes :=
  s.toList.map fun c => UInt8.ofNat c.toNat

end DistStorage
