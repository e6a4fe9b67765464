import ObSink.Server.Files

/-! # Device identities

From `server/src/auth/devices.rs`: what a sign-in says of its machine, as
`DeviceBody::validate` leaves it, and the name of a device.
-/

namespace ObSink.Server

def maxDeviceName : Nat := 80

structure DeviceIdentity where
  id : String
  name : String
  platform : String
  deriving DecidableEq, Repr

def validDeviceId (id : String) : Bool :=
  id.toList.all fun c => c.isAlphanum || c = '-' || c = '_'

def cleanDeviceName (name : Option String) : String :=
  let trimmed := (name.map Text.trim).getD ""
  if trimmed = "" then "device" else String.ofList (trimmed.toList.take maxDeviceName)

theorem colon_notMem_of_validDeviceId {id : String} (hid : validDeviceId id) :
    ':' ∉ id.toList := by
  intro hcolon
  have hchar := List.all_eq_true.mp hid ':' hcolon
  revert hchar
  decide

end ObSink.Server
