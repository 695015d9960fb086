namespace DeclTree

structure DeviceError where
  kind : String
  message : String
  deriving DecidableEq

namespace DeviceError

def writeZero : DeviceError := ⟨"WriteZero", "failed to write whole buffer"⟩

def interrupted (e : DeviceError) : Bool := e.kind = "Interrupted"

end DeviceError

inductive Reply
  | accept (most : Nat)
  | fail (error : DeviceError)
  deriving DecidableEq

def Reply.total : List Reply → Nat
  | [] => 0
  | accept most :: rest => most + total rest
  | fail _ :: rest => total rest

/-- A device that keeps bytes. It gives the scripted replies first, one to each offer; after them
it keeps at most `chunk` bytes of an offer and at most `capacity` bytes in all. -/
structure Device where
  script : List Reply := []
  chunk : Option Nat := none
  capacity : Option Nat := none
  refusal : Option DeviceError := none
  held : Array UInt8 := #[]
  deriving DecidableEq

namespace Device

def keep (bytes : List UInt8) (device : Device) : Device :=
  { device with held := device.held ++ bytes }

def left (device : Device) : Option Nat := device.capacity.map (· - device.held.size)

def most (device : Device) : Option Nat :=
  match device.chunk, device.left with
  | some chunk, some left => some (min chunk left)
  | some chunk, none => some chunk
  | none, left => left

/-- Offer the bytes, then what is left of them, to a device whose script is used up. A refusal is
final whatever its kind, since it would be repeated for ever. -/
def fill (device : Device) (bytes : List UInt8) : Except DeviceError Unit × Device :=
  match bytes with
  | [] => (.ok (), device)
  | b :: rest =>
    match device.most with
    | none => (.ok (), device.keep (b :: rest))
    | some 0 => (.error (device.refusal.getD .writeZero), device)
    | some (n + 1) => (device.keep (b :: rest.take n)).fill (rest.drop n)
termination_by bytes.length
decreasing_by
  simp only [List.length_drop, List.length_cons]
  omega

/-- Offer the bytes, then what is left of them, to a device with the given script. An interrupted
offer is made again, and a device that keeps nothing of an offer has failed. -/
def offer : List Reply → List UInt8 → Device → Except DeviceError Unit × Device
  | script, [], device => (.ok (), { device with script })
  | [], b :: rest, device => { device with script := [] }.fill (b :: rest)
  | .accept 0 :: script, _ :: _, device => (.error .writeZero, { device with script })
  | .accept (n + 1) :: script, b :: rest, device =>
    (device.keep (b :: rest.take n)).offer script (rest.drop n)
  | .fail e :: script, b :: rest, device =>
    if e.interrupted then device.offer script (b :: rest)
    else (.error e, { device with script })

def writeAll (device : Device) (bytes : List UInt8) : Except DeviceError Unit × Device :=
  device.offer device.script bytes

def room (device : Device) : Option Nat :=
  (if device.chunk = some 0 then some 0 else device.left).map (Reply.total device.script + ·)

end Device

end DeclTree
