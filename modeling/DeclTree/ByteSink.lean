import DeclTree.Sink
import DeclTree.Text

namespace DeclTree

structure ByteSink where
  device : Device
  error : Option DeviceError := none
  deriving DecidableEq

namespace ByteSink

def write (text : String) (out : ByteSink) : Bool × ByteSink :=
  match out.device.writeAll (Text.utf8 text) with
  | (.ok (), device) => (true, { out with device })
  | (.error e, device) => (false, { device, error := some e })

def takeError (out : ByteSink) : Option DeviceError × ByteSink :=
  (out.error, { out with error := none })

instance : Sink ByteSink where
  write := write
  room out := out.device.room

inductive Call
  | write (text : String)
  | takeError
  deriving DecidableEq

inductive Answer
  | written (whole : Bool)
  | error (error : Option DeviceError)
  deriving DecidableEq

def call : Call → ByteSink → Answer × ByteSink
  | .write text, out =>
    let (whole, out) := out.write text
    (.written whole, out)
  | .takeError, out =>
    let (error, out) := out.takeError
    (.error error, out)

def calls : List Call → ByteSink → List Answer × ByteSink
  | [], out => ([], out)
  | c :: rest, out =>
    let (answer, out) := out.call c
    let (answers, out) := out.calls rest
    (answer :: answers, out)

end ByteSink

end DeclTree
