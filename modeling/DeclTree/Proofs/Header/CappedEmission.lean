import DeclTree.Proofs.FittingPrefix
import DeclTree.Proofs.Header.Chain

namespace DeclTree.Header

open Rendering

variable {tree : Tree} {options : Options} {node : NodeId → Rendering Unit} {id : NodeId}

theorem renderWithin_mono {fuel more : Nat} (h : fuel ≤ more) (id : NodeId) (follow : Bool) :
    Within (renderWithin tree options fuel id follow) (renderWithin tree options more id follow) := by
  have hnode (id : NodeId) :
      Within (nodeWithin tree options fuel id 0 0) (nodeWithin tree options more id 0 0) :=
    nodeWithin_mono h id 0 0
  cases follow with
  | false => exact hnode id
  | true => exact chainWithin_mono hnode h id

theorem render_within_cap (id : NodeId) (follow : Bool) (cap : Nat) :
    Within (render tree options none id follow) (render tree options (some cap) id follow) :=
  renderWithin_mono (Nat.mul_le_mul_left _ (Nat.add_le_add_right (Nat.zero_le cap) 2)) id follow

theorem render_within_larger_cap {cap more : Nat} (h : cap ≤ more) (id : NodeId) (follow : Bool) :
    Within (render tree options (some cap) id follow) (render tree options (some more) id follow) :=
  renderWithin_mono (Nat.mul_le_mul_left _ (Nat.add_le_add_right h 2)) id follow

theorem emit_eq_into (tree : Tree) (options : Options) (id : NodeId) (follow : Bool) (cap : Nat) :
    emit tree options id follow ({ cap } : Capped) =
      (render tree options (some cap) id follow).into ({ cap } : Capped) := rfl

theorem written_chain_of_siblings {count : Nat} {ids : List NodeId} {texts : List String}
    (h : tree.siblings count id = .ok ids)
    (htexts : ids.mapM (fun id => (node id).toText) = .ok texts) :
    ∃ rest, (chainWithin tree node count id).written = String.join texts ++ rest := by
  induction count generalizing id ids texts with
  | zero =>
    cases h
    cases htexts
    exact ⟨"", rfl⟩
  | succ count ih =>
    obtain ⟨n, hn, ⟨hnext, rfl⟩ | ⟨next, rest, hnext, hrest, rfl⟩⟩ := Tree.siblings_succ_eq_ok h
    · obtain ⟨t, ts, ht, hts, rfl⟩ := mapM_cons_eq_ok.mp htexts
      cases hts
      refine ⟨"", ?_⟩
      rw [chainWithin_of_last hn hnext, (toText_eq_ok_iff.mp ht).2]
      simp
    · obtain ⟨t, ts, ht, hts, rfl⟩ := mapM_cons_eq_ok.mp htexts
      obtain ⟨more, hmore⟩ := ih hrest hts
      obtain ⟨hok, hwritten⟩ := toText_eq_ok_iff.mp ht
      refine ⟨more, ?_⟩
      rw [chainWithin_of_next hn hnext, written_bind_of_ok hok, hwritten, hmore,
        String.join_cons, String.append_assoc]

theorem emit_capped_of_emitText {follow : Bool} {whole : String}
    (h : emitText tree options id follow = .ok whole) (cap : Nat) :
    (whole.utf8ByteSize ≤ cap →
      emit tree options id follow ({ cap } : Capped) = (.ok (), { cap, held := whole })) ∧
    (cap < whole.utf8ByteSize → ∃ held, LongestFit cap whole held ∧
      emit tree options id follow ({ cap } : Capped) = (.error .rejected, { cap, held })) := by
  obtain ⟨hok, hwhole⟩ := toText_eq_ok_iff.mp h
  obtain ⟨ho, hw⟩ := (render_within_cap id follow cap).eq_of_ends (by rw [hok]; nofun)
  rw [emit_eq_into]
  constructor
  · intro hle
    rw [into_capped_of_le (by rwa [← hw, hwhole]), ← ho, ← hw, hok, hwhole]
    rfl
  · intro hlt
    obtain ⟨held, hheld, he⟩ := into_capped_of_lt (r := render tree options (some cap) id follow)
      (by rwa [← hw, hwhole])
    rw [← hw, hwhole] at hheld
    exact ⟨held, hheld, he⟩

theorem emit_capped_of_siblings {count cap : Nat} {ids : List NodeId} {texts : List String}
    (h : tree.siblings count id = .ok ids)
    (htexts : ids.mapM (emitText tree options · false) = .ok texts)
    (hcap : cap < (String.join texts).utf8ByteSize) :
    ∃ held, LongestFit cap (String.join texts) held ∧
      emit tree options id true ({ cap } : Capped) = (.error .rejected, { cap, held }) := by
  let fuel := fuelFor tree (some cap)
  let node := fun id => nodeWithin tree options fuel id 0 0
  let chain := fun fuel => chainWithin tree node fuel id
  have hnode : ids.mapM (fun id => (node id).toText) = .ok texts := by
    rw [← htexts]
    congr 1
    funext id
    exact toText_nodeWithin_of_room (some cap) id 0 0
  obtain ⟨rest, hrest⟩ := written_chain_of_siblings h hnode
  have hmono {n m : Nat} (hle : n ≤ m) : Within (chain n) (chain m) :=
    chainWithin_mono (fun _ => .refl _) hle id
  obtain ⟨a, ha⟩ := (hmono (Nat.le_max_left count fuel)).written
  obtain ⟨b, hb⟩ := (hmono (Nat.le_max_right count fuel)).written
  have hover : cap < (chain fuel).written.utf8ByteSize := by
    have hcount : cap < chainSize tree node count id := by
      rw [chainSize, hrest, String.utf8ByteSize_append]
      omega
    refine (chainSize_overflow cap hcount).trans_le (chainSize_mono tree node id ?_)
    rw [Nat.mul_comm]
    exact Nat.mul_le_mul (by omega) (by simp)
  obtain ⟨held, hheld, he⟩ := into_capped_of_lt hover
  -- both texts overflow, and both begin what the chain writes with the larger fuel
  have hjoin : (chain fuel).written ++ b = String.join texts ++ (rest ++ a) := by
    rw [← hb, ha, ← String.append_assoc, ← hrest]
  have hwhole : LongestFit cap ((chain fuel).written ++ b) held :=
    (longestFit_append_iff hover).mpr hheld
  rw [hjoin] at hwhole
  exact ⟨held, (longestFit_append_iff hcap).mp hwhole, he⟩

theorem emit_capped_of_fault {follow : Bool} {f : Fault} (hf : f ≠ .endless)
    (h : emitText tree options id follow = .error f) (cap : Nat) :
    (emit tree options id follow ({ cap } : Capped)).1 = .error .rejected ∨
      (emit tree options id follow ({ cap } : Capped)).1 = .error (.fault f) := by
  have hfault := toText_eq_error_iff.mp h
  obtain ⟨ho, _⟩ := (render_within_cap id follow cap).eq_of_ends (by rw [hfault]; simpa using hf)
  rw [emit_eq_into]
  rcases Nat.lt_or_ge cap (render tree options (some cap) id follow).written.utf8ByteSize
    with hlt | hle
  · obtain ⟨held, _, he⟩ := into_capped_of_lt hlt
    exact .inl (by rw [he])
  · rw [into_capped_of_le hle, ← ho, hfault]
    exact .inr rfl

theorem emit_capped_fault_mono {follow : Bool} {f : Fault} (hf : f ≠ .endless) {cap more : Nat}
    (h : (emit tree options id follow ({ cap } : Capped)).1 = .error (.fault f))
    (hle : cap ≤ more) :
    emit tree options id follow ({ cap := more } : Capped) =
      (.error (.fault f), ⟨more, (emit tree options id follow ({ cap } : Capped)).2.held⟩) := by
  rw [emit_eq_into] at h ⊢
  obtain ⟨hfits, hfault⟩ := of_into_capped_eq_fault h
  obtain ⟨ho, hw⟩ :=
    (render_within_larger_cap hle id follow).eq_of_ends (by rw [hfault]; simpa using hf)
  have hmore : (render tree options (some more) id follow).written.utf8ByteSize ≤ more := by
    rw [← hw]
    exact hfits.trans hle
  rw [into_capped_of_le hmore, emit_eq_into, into_capped_of_le hfits, ← ho, ← hw, hfault]
  rfl

theorem emit_capped (tree : Tree) (options : Options) (id : NodeId) (follow : Bool) (cap : Nat) :
    (∀ whole, emitText tree options id follow = .ok whole →
      (whole.utf8ByteSize ≤ cap →
        emit tree options id follow ({ cap } : Capped) = (.ok (), { cap, held := whole })) ∧
      (cap < whole.utf8ByteSize → ∃ held, LongestFit cap whole held ∧
        emit tree options id follow ({ cap } : Capped) = (.error .rejected, { cap, held }))) ∧
    (∀ count ids texts, tree.siblings count id = .ok ids →
      ids.mapM (emitText tree options · false) = .ok texts →
      cap < (String.join texts).utf8ByteSize →
      ∃ held, LongestFit cap (String.join texts) held ∧
        emit tree options id true ({ cap } : Capped) = (.error .rejected, { cap, held })) ∧
    ∀ f, f ≠ .endless →
      (emitText tree options id follow = .error f →
        (emit tree options id follow ({ cap } : Capped)).1 = .error .rejected ∨
          (emit tree options id follow ({ cap } : Capped)).1 = .error (.fault f)) ∧
      ((emit tree options id follow ({ cap } : Capped)).1 = .error (.fault f) →
        ∀ more, cap ≤ more → emit tree options id follow ({ cap := more } : Capped) =
          (.error (.fault f), ⟨more, (emit tree options id follow ({ cap } : Capped)).2.held⟩)) := by
  refine ⟨fun whole h => emit_capped_of_emitText h cap,
    fun count ids texts h htexts hcap => emit_capped_of_siblings h htexts hcap, ?_⟩
  intro f hf
  exact ⟨fun h => emit_capped_of_fault hf h cap,
    fun h more hle => emit_capped_fault_mono hf h hle⟩

def looping : Tree where
  nodes := #[{ payload := .identifier none, text := some "aé", next := some 1 },
    { payload := .identifier none, text := some "b", next := some 0 },
    { payload := .unary .negate 7, text := some "-" }]

theorem emit_capped_looping :
    emit looping {} 0 false ({ cap := 3 } : Capped) = (.ok (), ⟨3, "aé"⟩) ∧
    (∃ held, LongestFit 2 "aé" held ∧
      emit looping {} 0 false ({ cap := 2 } : Capped) = (.error .rejected, ⟨2, held⟩)) ∧
    (∃ held, LongestFit 5 (String.join ["aé", "b", "aé"]) held ∧
      emit looping {} 0 true ({ cap := 5 } : Capped) = (.error .rejected, ⟨5, held⟩)) ∧
    ((emit looping {} 2 false ({ cap := 1 } : Capped)).1 = .error .rejected ∨
      (emit looping {} 2 false ({ cap := 1 } : Capped)).1 = .error (.fault (.foreignNode 7))) ∧
    emit looping {} 2 false ({ cap := 9 } : Capped) =
      (.error (.fault (.foreignNode 7)),
        ⟨9, (emit looping {} 2 false ({ cap := 2 } : Capped)).2.held⟩) := by
  refine ⟨((emit_capped looping {} 0 false 3).1 "aé" rfl).1 (by decide),
    ((emit_capped looping {} 0 false 2).1 "aé" rfl).2 (by decide),
    (emit_capped looping {} 0 true 5).2.1 3 [0, 1, 0] ["aé", "b", "aé"] rfl rfl (by decide), ?_, ?_⟩
  · exact ((emit_capped looping {} 2 false 1).2.2 (.foreignNode 7) nofun).1 rfl
  · exact ((emit_capped looping {} 2 false 2).2.2 (.foreignNode 7) nofun).2 rfl 9 (by decide)

end DeclTree.Header
