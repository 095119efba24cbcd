import VirtualProcessor.Device.Eeprom
import VirtualProcessor.Device.Probe
import VirtualProcessor.Device.Screen

/-!
# Devices
-/

namespace VirtualProcessor

inductive Device where
  | eeprom (e : Eeprom)
  | screen (s : Screen)
  | probe (p : Probe)

namespace Device

instance : Peripheral Device where
  read
    | eeprom e, register => let (e, value) := Peripheral.read e register; (eeprom e, value)
    | screen s, register => let (s, value) := Peripheral.read s register; (screen s, value)
    | probe p, register => let (p, value) := Peripheral.read p register; (probe p, value)
  write
    | eeprom e, register, value => let (e, done) := Peripheral.write e register value; (eeprom e, done)
    | screen s, register, value => let (s, done) := Peripheral.write s register value; (screen s, done)
    | probe p, register, value => let (p, done) := Peripheral.write p register value; (probe p, done)

end Device

end VirtualProcessor
