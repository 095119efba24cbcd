import VirtualProcessor.Bench

/-!
# A probe

A device that counts what is done to it. Writing to register `n` stores `n` times the value, reading any
register gives the stored value, and register 0 refuses both.
-/

namespace VirtualProcessor

structure Probe where
  value : Float := 0
  reads : Nat := 0
  writes : Nat := 0

namespace Probe

instance : Peripheral Probe where
  read p register :=
    ({ p with reads := p.reads + 1 }, if 0 < register then some p.value else none)
  write p register value :=
    if register = 0 then ({ p with writes := p.writes + 1 }, false)
    else ({ p with writes := p.writes + 1, value := register.toFloat * value }, true)

end Probe

end VirtualProcessor
