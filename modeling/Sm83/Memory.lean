/-!
# Flat memory

All 65536 cells that sixteen address bits can name, with no banks and no devices behind them.
Every address is valid. A memory is determined by its cells (`ext_read`), a write changes the cell
it names and no other (`read_write`), and a block that runs past the last address goes on at the
first.
-/

namespace Sm83

structure Memory where
  bytes : ByteArray
  size_eq : bytes.size = 0x10000

namespace Memory

def zero : Memory where
  bytes := ⟨Array.replicate 0x10000 0⟩
  size_eq := Array.size_replicate

instance : Inhabited Memory := ⟨zero⟩

theorem toNat_lt_size (m : Memory) (address : UInt16) : address.toNat < m.bytes.size :=
  m.size_eq ▸ address.toNat_lt

def read (m : Memory) (address : UInt16) : UInt8 :=
  m.bytes.get address.toNat (m.toNat_lt_size address)

def write (m : Memory) (address : UInt16) (value : UInt8) : Memory where
  bytes := m.bytes.set address.toNat value (m.toNat_lt_size address)
  size_eq := (Array.size_set _).trans m.size_eq

/-- Writes a block of bytes upwards from an address, from the last address on to the first. -/
def load (m : Memory) (address : UInt16) : List UInt8 → Memory
  | [] => m
  | b :: rest => (m.write address b).load (address + 1) rest

/-- The `count` bytes upwards from an address, from the last address on to the first. -/
def block (m : Memory) (address : UInt16) (count : Nat) : List UInt8 :=
  (List.range count).map fun i => m.read (address + i.toUInt16)

/-- The `count` bytes upwards from an address, as far as the memory reaches. -/
def slice (m : Memory) (address : UInt16) (count : Nat) : List UInt8 :=
  (m.bytes.extract address.toNat (address.toNat + count)).data.toList

/-- The cells in which `after` differs from `before`, with their new values, by ascending
address. -/
def changes (before after : Memory) : List (UInt16 × UInt8) :=
  Nat.foldRev 0x10000 (fun n _ found =>
    let address := n.toUInt16
    let value := after.read address
    if before.read address = value then found else (address, value) :: found) []

@[simp] theorem read_zero (address : UInt16) : zero.read address = 0 :=
  Array.getElem_replicate _

theorem read_write (m : Memory) (address other : UInt16) (value : UInt8) :
    (m.write address value).read other = if other = address then value else m.read other := by
  have cell : (m.write address value).read other =
      if address.toNat = other.toNat then value else m.read other :=
    Array.getElem_set (m.toNat_lt_size address) _
  rw [cell]
  by_cases same : other = address
  · simp [same]
  · have apart : address.toNat ≠ other.toNat := fun h => same (UInt16.toNat_inj.mp h).symm
    simp [same, apart]

@[simp] theorem read_write_self (m : Memory) (address : UInt16) (value : UInt8) :
    (m.write address value).read address = value := by
  simp [read_write]

theorem read_write_of_ne (m : Memory) {address other : UInt16} (value : UInt8)
    (h : other ≠ address) : (m.write address value).read other = m.read other := by
  simp [read_write, h]

theorem ext_read {m m' : Memory} (h : ∀ address, m.read address = m'.read address) : m = m' := by
  rcases m with ⟨bytes, size⟩
  rcases m' with ⟨bytes', size'⟩
  have same : bytes = bytes' := by
    refine ByteArray.ext_getElem (size.trans size'.symm) fun i hi _ => ?_
    obtain ⟨address, rfl⟩ : ∃ address : UInt16, i = address.toNat :=
      ⟨i.toUInt16, by simp; omega⟩
    exact h address
  subst same
  rfl

end Memory

end Sm83
