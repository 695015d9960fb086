import Mathlib.Data.Finset.Card
import Mathlib.Data.List.Forall2
import Mathlib.Data.List.SplitBy

namespace DeclTree

section Related

variable {α β γ : Type} {R : α → β → Prop} {S : β → γ → Prop} {as : List α} {bs : List β}
  {cs : List γ} {a : α} {j : Nat}

theorem exists_of_forall₂ (h : List.Forall₂ R as bs) (ha : as[j]? = some a) :
    ∃ b, bs[j]? = some b ∧ R a b := by
  obtain ⟨hj, rfl⟩ := List.getElem?_eq_some_iff.mp ha
  have hj' : j < bs.length := h.length_eq ▸ hj
  exact ⟨bs[j], List.getElem?_eq_getElem hj', h.get hj hj'⟩

theorem forall₂_of_exists (h : ∀ a ∈ as, ∃ b, R a b) : ∃ bs, List.Forall₂ R as bs := by
  induction as with
  | nil => exact ⟨[], .nil⟩
  | cons a as ih =>
    obtain ⟨b, hb⟩ := h a List.mem_cons_self
    obtain ⟨bs, hbs⟩ := ih fun a ha => h a (List.mem_cons_of_mem _ ha)
    exact ⟨b :: bs, .cons hb hbs⟩

theorem forall₂_comp :
    List.Forall₂ (fun a c => ∃ b, R a b ∧ S b c) as cs ↔
      ∃ bs, List.Forall₂ R as bs ∧ List.Forall₂ S bs cs := by
  constructor
  · intro h
    induction h with
    | nil => exact ⟨[], .nil, .nil⟩
    | cons hac _ ih =>
      obtain ⟨b, hab, hbc⟩ := hac
      obtain ⟨bs, has, hcs⟩ := ih
      exact ⟨b :: bs, .cons hab has, .cons hbc hcs⟩
  · rintro ⟨bs, has, hcs⟩
    induction has generalizing cs with
    | nil =>
      cases hcs
      exact .nil
    | cons hab _ ih =>
      cases hcs with
      | cons hbc hcs => exact .cons ⟨_, hab, hbc⟩ (ih hcs)

end Related

section Cuts

variable {α : Type} {r : α → α → Bool} {a b : α}

theorem splitBy_cons_cons (h : r a b) (l : List α) :
    (a :: b :: l).splitBy r = ((b :: l).splitBy r).modifyHead (a :: ·) := by
  have hne : (b :: l).splitBy r ≠ [] := List.splitBy_ne_nil.mpr (List.cons_ne_nil b l)
  obtain ⟨s, ss, hs⟩ := List.exists_cons_of_ne_nil hne
  obtain ⟨hflat, hnil, hchain, hcut⟩ := List.splitBy_eq_iff.mp hs
  cases s with
  | nil => simp at hnil
  | cons d s =>
    obtain ⟨rfl, hl⟩ : b = d ∧ l = s ++ ss.flatten := by simpa using hflat
    rw [hs, List.modifyHead_cons, List.splitBy_eq_iff]
    refine ⟨by simp [hl], by simpa using hnil, ?_, ?_⟩
    · intro m hm
      obtain rfl | hm := List.mem_cons.mp hm
      · exact List.isChain_cons_cons.mpr ⟨h, hchain _ List.mem_cons_self⟩
      · exact hchain m (List.mem_cons_of_mem _ hm)
    · rw [List.isChain_cons] at hcut ⊢
      refine ⟨fun next hnext => ?_, hcut.2⟩
      obtain ⟨_, hfirst, hlast⟩ := hcut.1 next hnext
      exact ⟨List.cons_ne_nil _ _, hfirst, by simpa using hlast⟩

theorem intercalate_modifyHead_cons {sep : List α} {l : List (List α)} (h : l ≠ []) :
    sep.intercalate (l.modifyHead (a :: ·)) = a :: sep.intercalate l := by
  cases l with
  | nil => exact absurd rfl h
  | cons s ss =>
    cases ss with
    | nil => simp
    | cons t ss => simp [List.intercalate_cons_cons]

end Cuts

section Split

variable {α : Type} {f : α → Bool} {t p q l : List α}

theorem mem_splitOnP_append (ht : ∀ x ∈ t, f x = false) (hp : ∀ x ∈ p.getLast?, f x)
    (hq : ∀ x ∈ q.head?, f x) : t ∈ (p ++ (t ++ q)).splitOnP f := by
  have hfirst : t ∈ (t ++ q).splitOnP f := by
    cases q with
    | nil => rw [List.append_nil, List.splitOnP_eq_singleton ht, List.mem_singleton]
    | cons sep q =>
      rw [List.splitOnP_append_cons_of_forall_mem ht sep (hq sep rfl)]
      exact List.mem_cons_self
  obtain rfl | ⟨p, sep, rfl⟩ := List.eq_nil_or_concat' p
  · exact hfirst
  · rw [List.append_assoc, List.singleton_append, List.splitOnP_append_cons p _ (hp sep (by simp))]
    exact List.mem_append_right _ hfirst

theorem exists_append_of_mem_splitOnP (h : t ∈ l.splitOnP f) :
    ∃ p q, l = p ++ (t ++ q) ∧ (∀ x ∈ t, f x = false) ∧ (∀ x ∈ p.getLast?, f x) ∧
      ∀ x ∈ q.head?, f x := by
  -- on the length, from one separator to the next
  induction hn : l.length using Nat.strongRecOn generalizing l with
  | ind n ih =>
    cases hfind : l.find? f with
    | none =>
      have hall : ∀ x ∈ l, f x = false := by simpa using hfind
      rw [List.splitOnP_eq_singleton hall, List.mem_singleton] at h
      exact ⟨[], [], by simp [h], h ▸ hall, nofun, nofun⟩
    | some sep =>
      obtain ⟨hsep, xs, rest, rfl, hxs⟩ := List.find?_eq_some_iff_append.mp hfind
      have hxs : ∀ x ∈ xs, f x = false := by simpa using hxs
      rw [List.splitOnP_append_cons_of_forall_mem hxs sep hsep, List.mem_cons] at h
      rcases h with rfl | h
      · exact ⟨[], sep :: rest, rfl, hxs, nofun, by simp [hsep]⟩
      · have hlt : rest.length < n := by simp at hn; omega
        obtain ⟨p, q, rfl, ht, hp, hq⟩ := ih rest.length hlt h rfl
        refine ⟨xs ++ sep :: p, q, by simp, ht, ?_, hq⟩
        cases hlast : p.getLast? <;> simp_all [List.getLast?_cons]

end Split

theorem getLast?_cons_or {α : Type} (x : α) (xs : List α) (before : Option α) :
    (x :: xs).getLast?.or before = xs.getLast?.or (some x) := by
  rw [List.getLast?_cons]
  cases xs.getLast? <;> rfl

section Growing

variable {α : Type} {D : Nat → Finset α} {bound n : Nat}

theorem stable_of_card_le (hmono : ∀ n, D n ⊆ D (n + 1)) (hcard : ∀ n, (D n).card ≤ bound)
    (hstep : ∀ n, D n = D (n + 1) → D (n + 1) = D (n + 2)) (hn : bound ≤ n) : D n = D bound := by
  have hsub : Monotone D := monotone_nat_of_le_succ hmono
  have hstill (m : Nat) (hm : (D m).card = (D (m + 1)).card) :
      (D (m + 1)).card = (D (m + 2)).card := by
    have he := Finset.eq_of_subset_of_card_le (hmono m) hm.ge
    rw [hstep m he]
  have he := Nat.stabilises_of_monotone (fun _ _ h => Finset.card_le_card (hsub h)) hcard hstill hn
  exact (Finset.eq_of_subset_of_card_le (hsub hn) he.le).symm

end Growing

end DeclTree
