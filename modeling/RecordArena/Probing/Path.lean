/-!
# Probe paths

A probe walks forward from the home slot of an entry and continues at the front after the last
slot. Positions are 64-bit words and a capacity is a power of two, so distances along the path are
wrapping differences under a mask.
-/

namespace RecordArena

/-- Whether `hole` is met strictly before `slot` on the probe path from `home`. An entry in `slot`
may move into `hole` exactly then. -/
def inProbeRange (home hole slot mask : UInt64) : Bool :=
  (hole - home) &&& mask < (slot - home) &&& mask

end RecordArena
