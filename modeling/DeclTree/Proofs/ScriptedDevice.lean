import Mathlib.Data.List.Induction
import DeclTree.Proofs.BoundedDevice

namespace DeclTree

/-- The error in which a write ends at this reply. A short write and an interruption end none. -/
def Reply.error? : Reply → Option DeviceError
  | accept 0 => some .writeZero
  | accept (_ + 1) => none
  | fail e => if e.interrupted then none else some e

structure Transfer where
  replies : List Reply
  kept : List UInt8
  error : Option DeviceError

namespace Transfer

structure Of (bytes : List UInt8) (t : Transfer) : Prop where
  kept_prefix : t.kept <+: bytes
  error_eq_none_iff : t.error = none ↔ t.kept = bytes
  error_eq : t.error = t.replies.findSome? Reply.error?
  error_last : ∀ reply ∈ t.replies.dropLast, reply.error? = none
  replies_of_nil : bytes = [] → t.replies = []

variable {bytes : List UInt8} {t : Transfer} {reply : Reply} {e : DeviceError}

theorem Of.whole (bytes : List UInt8) : Of bytes ⟨[], bytes, none⟩ :=
  ⟨List.prefix_refl bytes, by simp, rfl, nofun, fun _ => rfl⟩

theorem Of.stopped (h : reply.error? = some e) (hbytes : bytes ≠ []) :
    Of bytes ⟨[reply], [], some e⟩ where
  kept_prefix := List.nil_prefix
  error_eq_none_iff := by simp [hbytes.symm]
  error_eq := by simp [h]
  error_last := nofun
  replies_of_nil hnil := absurd hnil hbytes

theorem Of.isNone_error (h : Of bytes t) : t.error.isNone = decide (t.kept = bytes) := by
  rw [Bool.eq_iff_iff, Option.isNone_iff_eq_none, decide_eq_true_iff]
  exact h.error_eq_none_iff

theorem Of.after {k : Nat} (h : Of (bytes.drop k) t) (hreply : reply.error? = none)
    (hbytes : bytes ≠ []) : Of bytes ⟨reply :: t.replies, bytes.take k ++ t.kept, t.error⟩ where
  kept_prefix := by
    have hkept := (List.prefix_append_right_inj (bytes.take k)).mpr h.kept_prefix
    rwa [List.take_append_drop] at hkept
  error_eq_none_iff := by
    rw [h.error_eq_none_iff, ← List.append_right_inj (bytes.take k), List.take_append_drop]
  error_eq := by
    rw [List.findSome?_cons, hreply]
    exact h.error_eq
  error_last r hr := by
    cases hreplies : t.replies with
    | nil =>
      rw [hreplies] at hr
      cases hr
    | cons r' rest =>
      rw [hreplies, List.dropLast_cons_cons, ← hreplies] at hr
      obtain rfl | hr := List.mem_cons.mp hr
      · exact hreply
      · exact h.error_last r hr
  replies_of_nil hnil := absurd hnil hbytes

end Transfer

namespace Device

structure Unlimited (device : Device) : Prop where
  chunk : device.chunk = none
  capacity : device.capacity = none

variable {device : Device}

theorem Unlimited.fill (h : device.Unlimited) (bytes : List UInt8) :
    device.fill bytes = (.ok (), device.keep bytes) := by
  cases bytes with
  | nil => rw [Device.fill, keep_nil]
  | cons b rest =>
    have hmost : device.most = none := by simp [most, left, h.chunk, h.capacity]
    rw [Device.fill, hmost]

theorem Unlimited.offer (h : device.Unlimited) (script : List Reply) (bytes : List UInt8) :
    ∃ t rest, Transfer.Of bytes t ∧ script = t.replies ++ rest ∧
      device.offer script bytes =
        (t.error.elim (.ok ()) .error, { device.keep t.kept with script := rest }) := by
  fun_induction Device.offer script bytes device with
  | case1 script device => exact ⟨_, script, .whole [], rfl, by rw [keep_nil]; rfl⟩
  | case2 b rest device =>
    have hempty : Unlimited { device with script := [] } := ⟨h.chunk, h.capacity⟩
    exact ⟨_, [], .whole _, rfl, hempty.fill _⟩
  | case3 script b rest device =>
    exact ⟨_, script, .stopped rfl (List.cons_ne_nil b rest), rfl, by rw [keep_nil]; rfl⟩
  | case4 n script b rest device ih =>
    obtain ⟨t, later, ht, hscript, hoffer⟩ := ih ⟨h.chunk, h.capacity⟩
    have hafter : Transfer.Of (b :: rest)
        ⟨.accept (n + 1) :: t.replies, (b :: rest).take (n + 1) ++ t.kept, t.error⟩ :=
      .after (k := n + 1) ht rfl (List.cons_ne_nil b rest)
    refine ⟨_, later, hafter, congrArg _ hscript, ?_⟩
    rw [hoffer, keep_keep]
    rfl
  | case5 e script b rest device hinterrupted ih =>
    obtain ⟨t, later, ht, hscript, hoffer⟩ := ih h
    have hafter : Transfer.Of (b :: rest) ⟨.fail e :: t.replies, t.kept, t.error⟩ :=
      .after (k := 0) ht (if_pos hinterrupted) (List.cons_ne_nil b rest)
    exact ⟨_, later, hafter, congrArg _ hscript, hoffer⟩
  | case6 e script b rest device hlasting =>
    have herror : (Reply.fail e).error? = some e := if_neg hlasting
    exact ⟨_, script, .stopped herror (List.cons_ne_nil b rest), rfl, by rw [keep_nil]; rfl⟩

end Device

namespace ByteSink

variable {start : Device} {cs : List Call} {answers : List Answer} {out : ByteSink}

def Call.bytes : Call → List UInt8
  | write text => Text.utf8 text
  | takeError => []

structure Entry where
  call : Call
  transfer : Transfer

def untaken (past : List Entry) : Option DeviceError :=
  (past.reverse.takeWhile (·.call ≠ .takeError)).findSome? (·.transfer.error)

def Entry.answer (past : List Entry) (entry : Entry) : Answer :=
  match entry.call with
  | .write text => .written (entry.transfer.kept = Text.utf8 text)
  | .takeError => .error (untaken past)

structure Account (start : Device) (cs : List Call) (answers : List Answer) (out : ByteSink)
    (log : List Entry) : Prop where
  calls : log.map Entry.call = cs
  transfers : ∀ entry ∈ log, Transfer.Of entry.call.bytes entry.transfer
  script : start.script = log.flatMap (·.transfer.replies) ++ out.device.script
  held : out.device.held.toList = start.held.toList ++ log.flatMap (·.transfer.kept)
  answers : answers = log.mapIdx fun i entry => entry.answer (log.take i)
  error : out.error = untaken log
  unlimited : out.device.Unlimited

theorem untaken_append_singleton (past : List Entry) (entry : Entry) :
    untaken (past ++ [entry]) =
      match entry.call with
      | .write _ => entry.transfer.error.or (untaken past)
      | .takeError => none := by
  obtain ⟨c, t⟩ := entry
  cases c with
  | write text =>
    rw [untaken, List.reverse_append, List.reverse_singleton, List.singleton_append,
      List.takeWhile_cons_of_pos (by simp), List.findSome?_cons]
    cases t.error <;> rfl
  | takeError => simp [untaken]

theorem call_eq (h : out.device.Unlimited) (c : Call) (past : List Entry)
    (hpast : out.error = untaken past) :
    ∃ t rest, Transfer.Of c.bytes t ∧ out.device.script = t.replies ++ rest ∧
      out.call c = (Entry.answer past ⟨c, t⟩,
        { device := { out.device.keep t.kept with script := rest },
          error := untaken (past ++ [⟨c, t⟩]) }) := by
  simp only [untaken_append_singleton, ← hpast]
  cases c with
  | write text =>
    obtain ⟨t, rest, ht, hscript, hoffer⟩ := h.offer out.device.script (Text.utf8 text)
    refine ⟨t, rest, ht, hscript, ?_⟩
    have hwrite : out.write text = (t.error.isNone,
        { device := { out.device.keep t.kept with script := rest },
          error := t.error.or out.error }) := by
      rw [write, Device.writeAll, hoffer]
      cases t.error <;> rfl
    rw [call, hwrite, ht.isNone_error]
    rfl
  | takeError =>
    refine ⟨_, out.device.script, .whole [], rfl, ?_⟩
    rw [Device.keep_nil, Entry.answer, ← hpast]
    rfl

theorem calls_append_singleton (cs : List Call) (c : Call) (out : ByteSink) :
    out.calls (cs ++ [c]) =
      ((out.calls cs).1 ++ [((out.calls cs).2.call c).1], ((out.calls cs).2.call c).2) := by
  induction cs generalizing out with
  | nil => rfl
  | cons d cs ih =>
    simp only [List.cons_append, calls, ih]

theorem Account.step {log : List Entry} (h : Account start cs answers out log) (c : Call) :
    ∃ entry, Account start (cs ++ [c]) (answers ++ [(out.call c).1]) (out.call c).2
      (log ++ [entry]) := by
  obtain ⟨t, rest, ht, hscript, hcall⟩ := call_eq h.unlimited c log h.error
  refine ⟨⟨c, t⟩, ?_⟩
  rw [hcall]
  constructor
  case calls => rw [List.map_append, h.calls, List.map_singleton]
  case transfers =>
    intro entry hentry
    obtain hentry | hentry := List.mem_append.mp hentry
    · exact h.transfers entry hentry
    · rw [List.mem_singleton.mp hentry]
      exact ht
  case script =>
    rw [h.script, hscript, List.flatMap_append, List.flatMap_singleton, List.append_assoc]
  case held =>
    rw [List.flatMap_append, List.flatMap_singleton, ← List.append_assoc, ← h.held, Device.keep]
    exact Array.toList_appendList
  case answers =>
    have hpast : log.mapIdx (fun i entry => entry.answer (log.take i)) =
        log.mapIdx fun i entry => entry.answer ((log ++ [Entry.mk c t]).take i) := by
      rw [List.mapIdx_eq_mapIdx_iff]
      intro i hi
      rw [List.take_append_of_le_length (Nat.le_of_lt hi)]
    rw [List.mapIdx_concat, List.take_left, ← hpast, ← h.answers]
  case error => rfl
  case unlimited => exact ⟨h.unlimited.chunk, h.unlimited.capacity⟩

example :
    (ByteSink.calls [.write "é", .write "ab", .write "", .takeError, .takeError]
      { device := { script := [.accept 1, .fail ⟨"Interrupted", "signal"⟩,
          .fail ⟨"BrokenPipe", "reader went away"⟩, .accept 1, .accept 0] } }).1 =
      [.written false, .written false, .written true, .error (some .writeZero), .error none] := by
  decide

end ByteSink

end DeclTree
