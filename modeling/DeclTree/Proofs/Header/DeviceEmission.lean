import DeclTree.Proofs.BoundedDevice
import DeclTree.Proofs.Header.CappedEmission

namespace DeclTree

open Device Rendering

variable {chunk cap : Nat}

namespace Rendering

variable {α : Type} {r : Rendering α} {out : ByteSink}

theorem into_device_of_le (h : out.device.Bounded chunk cap)
    (hle : r.written.utf8ByteSize ≤ cap - out.device.held.size) :
    r.into out =
      (r.outcome.mapError .fault,
        { out with device := out.device.keep (Text.utf8 r.written) }) := by
  have hwrite : Sink.write r.written out = _ := ByteSink.write_of_le h hle
  rw [into_eq_write (ByteSink.splits chunk cap) r h, hwrite]

theorem into_device_of_lt (h : out.device.Bounded chunk cap)
    (hlt : cap - out.device.held.size < r.written.utf8ByteSize) :
    r.into out =
      (.error .rejected,
        { device := out.device.keep ((Text.utf8 r.written).take (cap - out.device.held.size)),
          error := some out.device.fullError }) := by
  have hwrite : Sink.write r.written out = _ := ByteSink.write_of_lt h hlt
  rw [into_eq_write (ByteSink.splits chunk cap) r h, hwrite]

end Rendering

namespace Header

variable {tree : Tree} {options : Options} {id : NodeId} {follow : Bool} {device : Device}
  {whole : String}

theorem emitToDevice_of_emitText (h : emitText tree options id follow = .ok whole)
    (hdevice : device.Bounded chunk cap) :
    emitToDevice tree options id follow device =
      (if whole.utf8ByteSize ≤ cap - device.held.size then .ok ()
        else .error (.device (device.refusal.getD .writeZero)),
        device.keep ((Text.utf8 whole).take (cap - device.held.size))) := by
  obtain ⟨hok, rfl⟩ := toText_eq_ok_iff.mp h
  obtain ⟨ho, hw⟩ := (render_within_cap id follow (cap - device.held.size)).eq_of_ends (by
    rw [hok]
    nofun)
  have hemit : emit tree options id follow ({ device } : ByteSink) =
      (render tree options (some (cap - device.held.size)) id follow).into { device } := by
    rw [← hdevice.room_eq]
    rfl
  rw [hw]
  rw [ho] at hok
  generalize render tree options (some (cap - device.held.size)) id follow = r at hok hemit
  rcases Nat.lt_or_ge (cap - device.held.size) r.written.utf8ByteSize with hlt | hle
  · rw [into_device_of_lt hdevice hlt] at hemit
    rw [emitToDevice, hemit, if_neg (Nat.not_le.mpr hlt)]
    rfl
  · rw [into_device_of_le hdevice hle, hok] at hemit
    rw [emitToDevice, hemit, if_pos hle, List.take_of_length_le (by rwa [Text.length_utf8])]
    rfl

def narrow (refusal : Option DeviceError) (held : Array UInt8) : Device where
  chunk := some 1
  capacity := some 3
  refusal
  held

theorem bounded_narrow {refusal : Option DeviceError} {held : Array UInt8}
    (h : ∀ e ∈ refusal, e.interrupted = false) : (narrow refusal held).Bounded 1 3 :=
  ⟨Nat.one_pos, rfl, rfl, rfl, h⟩

theorem emitToDevice_looping :
    emitText looping {} 0 false = .ok "aé" ∧
    emitToDevice looping {} 0 false (narrow none #[]) = (.ok (), narrow none #[97, 195, 169]) ∧
    emitToDevice looping {} 0 false (narrow (some ⟨"StorageFull", "disk full"⟩) #[0]) =
      (.error (.device ⟨"StorageFull", "disk full"⟩),
        narrow (some ⟨"StorageFull", "disk full"⟩) #[0, 97, 195]) ∧
    emitToDevice looping {} 0 false (narrow none #[0]) =
      (.error (.device ⟨"WriteZero", "failed to write whole buffer"⟩),
        narrow none #[0, 97, 195]) := by
  have h : emitText looping {} 0 false = .ok "aé" := rfl
  refine ⟨h, ?_, ?_, ?_⟩
  · exact emitToDevice_of_emitText h (bounded_narrow (by decide))
  · exact emitToDevice_of_emitText h (bounded_narrow (by decide))
  · exact emitToDevice_of_emitText h (bounded_narrow (by decide))

end Header

end DeclTree
