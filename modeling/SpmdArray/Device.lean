/-!
# Devices

All shards live in the memory of the host; a device is a number that travels with a
tensor so that results inherit it.

## Main definitions

* `Device` — the number; `Device.name` is its name.
-/

namespace SpmdArray

/-- A device, by its number. -/
structure Device where
  /-- The number. -/
  id : Nat
  deriving DecidableEq, Repr

namespace Device

/-- The host. -/
def cpu : Device := ⟨0⟩

/-- The name of a device; the host has no number in its name. -/
def name (d : Device) : String := if d.id = 0 then "cpu" else s!"cpu:{d.id}"

end Device

end SpmdArray
