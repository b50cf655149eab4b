import Sm83.Bus

/-!
# Write-protected memory

Memory whose lower part can be read but not written over the bus, like a cartridge ROM. The
contents of that part are put in place by loading the memory itself.
-/

namespace Sm83

/-- Memory that drops bus writes to addresses below a limit. -/
structure WriteProtected where
  memory : Memory := .zero
  /-- The first address that can be written. -/
  limit : Nat := 0

namespace WriteProtected

def write (s : WriteProtected) (address : UInt16) (value : UInt8) : WriteProtected :=
  if address.toNat < s.limit then s else { s with memory := s.memory.write address value }

instance : Bus WriteProtected where
  read address s := (s.memory.read address, s)
  write address value s := s.write address value

theorem write_of_lt {s : WriteProtected} {address : UInt16} (value : UInt8)
    (h : address.toNat < s.limit) : s.write address value = s := by
  simp [write, h]

theorem memory_write_of_le {s : WriteProtected} {address : UInt16} (value : UInt8)
    (h : s.limit ≤ address.toNat) :
    (s.write address value).memory = s.memory.write address value := by
  simp [write, Nat.not_lt.mpr h]

end WriteProtected

end Sm83
