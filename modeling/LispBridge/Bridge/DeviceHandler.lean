import LispBridge.Bridge.Manager
import LispBridge.Device.Emulator

/-!
The handler that answers requests from an emulated device.

The host's state has a place for the device; what else the host keeps is left as it is.
-/

namespace LispBridge.Bridge

/-- A place in a host's state that holds a device. -/
structure DevicePlace (η : Type) where
  get : η → Device.Shared
  set : Device.Shared → η → η
  get_set : ∀ device host, get (set device host) = device

/-- The reply that a device's answer makes. -/
def Reply.ofDevice : Except Device.Fault String → Reply
  | .ok text => .answer text
  | .error e => .failed e.message

def deviceHandler {η : Type} (place : DevicePlace η) : Handler η := fun request =>
  .host fun host =>
    let r := (place.get host).answer request
    .setHost (place.set r.2 host) (.reply (.ofDevice r.1))

end LispBridge.Bridge
