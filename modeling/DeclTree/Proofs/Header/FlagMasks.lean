import Mathlib.Data.List.Nodup
import DeclTree.Proofs.Header.Prints

namespace DeclTree.Header

open Rendering

structure Storage where
  one : String
  type : String
  width : Nat
  deriving DecidableEq

namespace Storage

def narrow : Storage := ⟨"1u", "unsigned int", 32⟩

def wide : Storage := ⟨"1ull", "unsigned long long int", 64⟩

def choose (threshold count : Nat) : Storage := if min threshold 31 ≤ count then wide else narrow

def line (s : Storage) (bit : Nat) (name : String) : String :=
  "#define " ++ name ++ " (" ++ s.one ++ "<<" ++ toString bit ++ ")\n"

def aliasLine (s : Storage) : Option String → String
  | some name => "typedef " ++ s.type ++ " " ++ name ++ ";\n\n"
  | none => ""

def lines (s : Storage) (bit : Nat) (names : List String) : String :=
  String.join ((names.zipIdx bit).map fun (name, bit) => s.line bit name)

def mask (s : Storage) (bit : Nat) : BitVec s.width := 1#s.width <<< bit

structure Holds (s : Storage) (count : Nat) : Prop where
  toNat_mask : ∀ bit < count, (s.mask bit).toNat = 2 ^ bit
  fits : ∀ bit < count, 2 ^ bit < 2 ^ s.width
  sign_free : s.width = 32 → ∀ bit < count, 2 ^ bit < 2 ^ 31
  nodup : ((List.range count).map s.mask).Nodup

theorem choose_cases (threshold count : Nat) :
    choose threshold count = wide ∨ choose threshold count = narrow ∧ count < 31 := by
  unfold choose
  split
  · exact .inl rfl
  · exact .inr ⟨rfl, by omega⟩

theorem toNat_mask {s : Storage} {bit : Nat} (h : bit < s.width) : (s.mask bit).toNat = 2 ^ bit := by
  rw [mask, ← BitVec.twoPow_eq, BitVec.toNat_twoPow]
  exact Nat.mod_eq_of_lt (Nat.pow_lt_pow_right (by decide) h)

theorem holds_of_le {s : Storage} {count : Nat} (h : count ≤ s.width)
    (hfree : s.width = 32 → count ≤ 31) : s.Holds count := by
  have hpow {bit width : Nat} (hbit : bit < width) : 2 ^ bit < 2 ^ width :=
    Nat.pow_lt_pow_right (by decide) hbit
  refine ⟨fun bit hbit => toNat_mask (hbit.trans_le h), fun bit hbit => hpow (hbit.trans_le h),
    fun hwidth bit hbit => hpow (hbit.trans_le (hfree hwidth)), ?_⟩
  refine List.Nodup.map_on (fun i hi j hj heq => ?_) List.nodup_range
  have hnat := congrArg BitVec.toNat heq
  rw [toNat_mask ((List.mem_range.mp hi).trans_le h),
    toNat_mask ((List.mem_range.mp hj).trans_le h)] at hnat
  exact Nat.pow_right_injective (by decide) hnat

theorem holds_choose {count : Nat} (threshold : Nat) (h : count ≤ 64) :
    (choose threshold count).Holds count := by
  obtain hs | ⟨hs, hcount⟩ := choose_cases threshold count
  · rw [hs]
    exact holds_of_le h nofun
  · rw [hs]
    exact holds_of_le (hcount.le.trans (by decide)) fun _ => by omega

end Storage

theorem choose_eq_isWide (options : Options) (count : Nat) :
    Storage.choose options.wideFlagsThreshold count =
      if options.isWide count then .wide else .narrow := by
  simp [Storage.choose, Options.isWide, widestThreshold]

theorem unit_isWide (options : Options) (count : Nat) :
    unit (options.isWide count) = (Storage.choose options.wideFlagsThreshold count).one := by
  rw [choose_eq_isWide]
  cases options.isWide count <;> rfl

theorem storage_isWide (options : Options) (count : Nat) :
    storage (options.isWide count) = (Storage.choose options.wideFlagsThreshold count).type := by
  rw [choose_eq_isWide]
  cases options.isWide count <;> rfl

def Flag (tree : Tree) (options : Options) (id : NodeId) (name : String) : Prop :=
  ∃ node, tree.node id = .ok node ∧ node.name = name ∧
    (options.tagComments = false ∨ node.tags = [])

section Masks

variable {tree : Tree} {options : Options} {inner : Renderer} {id : NodeId} {bits : List NodeId}
  {names : List String} {name : Option String} {wide : Bool} {s : Storage}

theorem prints_masks (hone : unit wide = s.one) (h : List.Forall₂ (Flag tree options) bits names)
    (d l bit : Nat) :
    Prints (masks tree options inner wide d l bit bits) (s.lines bit names).toList := by
  induction h generalizing bit with
  | nil => exact .done
  | @cons id name bits names hflag _ ih =>
    obtain ⟨node, hnode, hname, hplain⟩ := hflag
    have hline : Prints (text ("#define " ++ node.name ++ " (" ++ unit wide ++ "<<" ++
        toString bit ++ ")\n")) (s.line bit name).toList := by
      rw [hname, hone]
      exact .text _
    simp only [masks, hnode, orFault, done_bind, tagComment_of_plain hplain]
    rw [Storage.lines, List.zipIdx_cons, List.map_cons, String.join_cons, String.toList_append]
    exact hline.bind (ih (bit + 1))

theorem prints_storageAlias (htype : storage wide = s.type) (name : Option String) :
    Prints (storageAlias wide name) (s.aliasLine name).toList := by
  cases name with
  | none => exact .done
  | some name =>
    rw [storageAlias, htype]
    exact .text _

theorem prints_flags (hset : Plain tree options id (.flags bits) name)
    (h : List.Forall₂ (Flag tree options) bits names)
    (hs : s = Storage.choose options.wideFlagsThreshold names.length) (d l : Nat) :
    Prints (nodeWith tree options inner id d l) (s.lines 0 names ++ s.aliasLine name).toList := by
  obtain ⟨node, hnode, hpayload, rfl, hplain⟩ := hset
  have hone : unit (options.isWide bits.length) = s.one := by rw [unit_isWide, h.length_eq, hs]
  have htype : storage (options.isWide bits.length) = s.type := by
    rw [storage_isWide, h.length_eq, hs]
  simp only [nodeWith, hnode, orFault, done_bind, tagComment_of_plain hplain, hpayload]
  rw [String.toList_append]
  exact (prints_masks hone h (d + 1) l 0).bind (prints_storageAlias htype node.text)

/-- A set of flags is written line by line, at any place in a header, with masks that fit the type
it names. -/
theorem emitText_flags (hset : Plain tree options id (.flags bits) name)
    (h : List.Forall₂ (Flag tree options) bits names) :
    let s := Storage.choose options.wideFlagsThreshold names.length
    emitText tree options id false = .ok (s.lines 0 names ++ s.aliasLine name) ∧
      (∀ d l, (unbounded tree options id d l).toText = .ok (s.lines 0 names ++ s.aliasLine name)) ∧
      (names.length ≤ 64 → s.Holds names.length) := by
  intro s
  have htext (d l : Nat) :
      (unbounded tree options id d l).toText = .ok (s.lines 0 names ++ s.aliasLine name) := by
    rw [(prints_unbounded (prints_flags hset h rfl d l)).toText, String.ofList_toList]
  exact ⟨htext 0 0, htext, Storage.holds_choose _⟩

end Masks

def accessTree : Tree where
  nodes := #[⟨.identifier none, some "Read", some 1, []⟩, ⟨.identifier none, none, none, [3]⟩,
    ⟨.flags [0, 1], some "Access", none, [3]⟩, ⟨.tag [], some "t", none, []⟩]

def loweredOptions : Options := .ofSettings [.withoutTagComments, .wideFlagsThreshold 2]

theorem emitText_flags_lowered :
    Plain accessTree loweredOptions 2 (.flags [0, 1]) (some "Access") ∧
    List.Forall₂ (Flag accessTree loweredOptions) [0, 1] ["Read", ""] ∧
    emitText accessTree loweredOptions 2 false =
      .ok ("#define Read (1ull<<0)\n#define  (1ull<<1)\n" ++
        "typedef unsigned long long int Access;\n\n") ∧
    Storage.wide.Holds 2 := by
  have hset : Plain accessTree loweredOptions 2 (.flags [0, 1]) (some "Access") :=
    ⟨_, rfl, rfl, rfl, .inl rfl⟩
  have hbits : List.Forall₂ (Flag accessTree loweredOptions) [0, 1] ["Read", ""] :=
    .cons ⟨_, rfl, rfl, .inl rfl⟩ (.cons ⟨_, rfl, rfl, .inl rfl⟩ .nil)
  obtain ⟨htext, -, hholds⟩ := emitText_flags hset hbits
  exact ⟨hset, hbits, htext, hholds (by decide)⟩

end DeclTree.Header
