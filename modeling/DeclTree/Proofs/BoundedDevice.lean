import DeclTree.ByteSink
import DeclTree.Proofs.Outcome

namespace DeclTree

namespace Device

/-- A device that keeps at most `chunk` bytes of an offer and `cap` bytes in all. Once it is full
it fails for good. -/
structure Bounded (device : Device) (chunk cap : Nat) : Prop where
  pos : 0 < chunk
  script : device.script = []
  chunk : device.chunk = some chunk
  capacity : device.capacity = some cap
  lasting : ∀ e ∈ device.refusal, e.interrupted = false

def fullError (device : Device) : DeviceError := device.refusal.getD .writeZero

def keepWithin (device : Device) (cap : Nat) (bytes : List UInt8) :
    Except DeviceError Unit × Device :=
  (if bytes.length ≤ cap - device.held.size then .ok () else .error device.fullError,
    device.keep (bytes.take (cap - device.held.size)))

variable {device : Device} {chunk cap : Nat} {a b bytes : List UInt8}

@[simp] theorem keep_nil : device.keep [] = device := by simp [keep]

@[simp] theorem keep_keep : (device.keep a).keep b = device.keep (a ++ b) := by
  have hheld : device.held ++ a ++ b = device.held ++ (a ++ b) := by
    apply Array.toList_inj.mp
    simp
  simp only [keep, hheld]

@[simp] theorem size_held_keep : (device.keep a).held.size = device.held.size + a.length := by
  rw [keep, ← Array.length_toList, Array.toList_appendList]
  simp

@[simp] theorem fullError_keep : (device.keep a).fullError = device.fullError := rfl

theorem keepWithin_of_le (h : bytes.length ≤ cap - device.held.size) :
    device.keepWithin cap bytes = (.ok (), device.keep bytes) := by
  rw [keepWithin, if_pos h, List.take_of_length_le h]

theorem keepWithin_of_lt (h : cap - device.held.size < bytes.length) :
    device.keepWithin cap bytes =
      (.error device.fullError, device.keep (bytes.take (cap - device.held.size))) := by
  rw [keepWithin, if_neg (Nat.not_le.mpr h)]

theorem keepWithin_append_of_le (h : a.length ≤ cap - device.held.size) :
    device.keepWithin cap (a ++ b) = (device.keep a).keepWithin cap b := by
  have hroom : cap - (device.held.size + a.length) = cap - device.held.size - a.length := by omega
  have hfits : (a ++ b).length ≤ cap - device.held.size ↔
      b.length ≤ cap - device.held.size - a.length := by
    rw [List.length_append]
    omega
  simp only [keepWithin, hfits, size_held_keep, hroom, fullError_keep, keep_keep, List.take_append,
    List.take_of_length_le h]

theorem keepWithin_append_of_lt (h : cap - device.held.size < a.length) :
    device.keepWithin cap (a ++ b) = device.keepWithin cap a := by
  have hwhole : cap - device.held.size < (a ++ b).length := by
    rw [List.length_append]
    omega
  rw [keepWithin_of_lt h, keepWithin_of_lt hwhole, List.take_append_of_le_length (Nat.le_of_lt h)]

namespace Bounded

theorem keep (h : device.Bounded chunk cap) (bytes : List UInt8) :
    (device.keep bytes).Bounded chunk cap :=
  ⟨h.pos, h.script, h.chunk, h.capacity, h.lasting⟩

theorem most_eq (h : device.Bounded chunk cap) :
    device.most = some (min chunk (cap - device.held.size)) := by
  simp [most, left, h.chunk, h.capacity]

theorem room_eq (h : device.Bounded chunk cap) :
    device.room = some (cap - device.held.size) := by
  have hchunk : chunk ≠ 0 := Nat.ne_of_gt h.pos
  simp [room, left, h.script, h.chunk, h.capacity, Reply.total, hchunk]

theorem fill_eq (h : device.Bounded chunk cap) (bytes : List UInt8) :
    device.fill bytes = device.keepWithin cap bytes := by
  fun_induction device.fill bytes with
  | case1 device => simp [keepWithin]
  | case2 device b rest hmost =>
    rw [h.most_eq] at hmost
    cases hmost
  | case3 device b rest hmost =>
    have hmin : min chunk (cap - device.held.size) = 0 := Option.some.inj (h.most_eq ▸ hmost)
    have hfull : cap - device.held.size = 0 := by
      have := h.pos
      omega
    rw [keepWithin_of_lt (by simp [hfull]), hfull, List.take_zero, keep_nil]
    rfl
  | case4 device b rest n hmost ih =>
    have hmin : min chunk (cap - device.held.size) = n + 1 := Option.some.inj (h.most_eq ▸ hmost)
    -- what this offer keeps fits as a whole, so the next one meets a device with less room
    have hkept : (b :: rest.take n).length ≤ cap - device.held.size := by
      rw [List.length_cons, List.length_take]
      omega
    rw [ih (h.keep _), ← keepWithin_append_of_le hkept, List.cons_append, List.take_append_drop]

theorem writeAll_eq (h : device.Bounded chunk cap) (bytes : List UInt8) :
    device.writeAll bytes = device.keepWithin cap bytes := by
  rw [← h.fill_eq, writeAll, h.script]
  have hscript : { device with script := [] } = device := by
    rw [← h.script]
  cases bytes with
  | nil => rw [offer, hscript, fill]
  | cons b rest => rw [offer, hscript]

end Bounded

end Device

namespace ByteSink

open Device

variable {chunk cap : Nat} {out : ByteSink} {text : String}

theorem write_of_le (h : out.device.Bounded chunk cap)
    (htext : text.utf8ByteSize ≤ cap - out.device.held.size) :
    out.write text = (true, { out with device := out.device.keep (Text.utf8 text) }) := by
  rw [write, h.writeAll_eq, keepWithin_of_le (by rwa [Text.length_utf8])]

theorem write_of_lt (h : out.device.Bounded chunk cap)
    (htext : cap - out.device.held.size < text.utf8ByteSize) :
    out.write text =
      (false,
        { device := out.device.keep ((Text.utf8 text).take (cap - out.device.held.size)),
          error := some out.device.fullError }) := by
  rw [write, h.writeAll_eq, keepWithin_of_lt (by rwa [Text.length_utf8])]

theorem write_eq_true (h : out.device.Bounded chunk cap) {out' : ByteSink}
    (hwrite : out.write text = (true, out')) :
    text.utf8ByteSize ≤ cap - out.device.held.size ∧
      out' = { out with device := out.device.keep (Text.utf8 text) } := by
  rcases Nat.lt_or_ge (cap - out.device.held.size) text.utf8ByteSize with hlt | hle
  · rw [write_of_lt h hlt] at hwrite
    cases hwrite
  · rw [write_of_le h hle] at hwrite
    cases hwrite
    exact ⟨hle, rfl⟩

theorem write_eq_false (h : out.device.Bounded chunk cap) {out' : ByteSink}
    (hwrite : out.write text = (false, out')) :
    cap - out.device.held.size < text.utf8ByteSize ∧
      out' =
        { device := out.device.keep ((Text.utf8 text).take (cap - out.device.held.size)),
          error := some out.device.fullError } := by
  rcases Nat.lt_or_ge (cap - out.device.held.size) text.utf8ByteSize with hlt | hle
  · rw [write_of_lt h hlt] at hwrite
    cases hwrite
    exact ⟨hlt, rfl⟩
  · rw [write_of_le h hle] at hwrite
    cases hwrite

theorem splits (chunk cap : Nat) :
    Sink.Splits fun out : ByteSink => out.device.Bounded chunk cap where
  empty {out} h := by
    have hempty : out.write "" = _ := write_of_le h (Nat.zero_le _)
    rwa [Text.utf8_empty, keep_nil] at hempty
  kept {out out' a} h hwrite := by
    obtain ⟨_, rfl⟩ := write_eq_true h hwrite
    exact h.keep _
  append {out out' a} h hwrite b := by
    obtain ⟨ha, rfl⟩ := write_eq_true h hwrite
    change out.write (a ++ b) = ByteSink.write b _
    rw [write, h.writeAll_eq, Text.utf8_append, keepWithin_append_of_le (by rwa [Text.length_utf8]),
      ← (h.keep _).writeAll_eq]
    rfl
  stop {out out' a} h hwrite b := by
    obtain ⟨ha, rfl⟩ := write_eq_false h hwrite
    change out.write (a ++ b) = _
    rw [write, h.writeAll_eq, Text.utf8_append, keepWithin_append_of_lt (by rwa [Text.length_utf8]),
      keepWithin_of_lt (by rwa [Text.length_utf8])]

end ByteSink

end DeclTree
