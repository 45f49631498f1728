import Mathlib.Data.Finset.Max
import FourValued.Proofs.Links
import FourValued.TruthTable

/-!
# The free classes of a truth table

A class of declared letters is free when its value is unknown, and its first declared letter leads it. The
free letters of a truth table are the representatives of the leaders, in the order of the leaders and not in
their own (`Rooted.freeLetters_eq`): among the representatives of unknown letters in alphabetical order, the
first occurrence of each is that of a leader. There are as many leaders as there are free classes.
-/

namespace FourValued

theorem eraseDups_append_singleton {α : Type} [DecidableEq α] (xs : List α) (y : α) :
    (xs ++ [y]).eraseDups = if y ∈ xs then xs.eraseDups else xs.eraseDups ++ [y] := by
  rw [List.eraseDups_append]
  by_cases hy : y ∈ xs
  · simp [List.removeAll, hy]
  · simp [List.removeAll, hy, List.eraseDups_cons]

theorem eraseDups_map {f : Letter → Letter} {ls : List Letter}
    (sorted : ls.Pairwise fun a b => a.index < b.index) : (ls.map f).eraseDups =
      (ls.filter fun l => ∀ k ∈ ls, f k = f l → l.index ≤ k.index).map f := by
  -- The last letter has the highest index, so it is the first for none of the letters before it.
  induction ls using List.reverseRecOn with
  | nil => rfl
  | append_singleton ls a ih =>
    obtain ⟨sorted, -, last⟩ := List.pairwise_append.1 sorted
    have before : ∀ l ∈ ls, l.index < a.index := fun l hl => last l hl a (List.mem_singleton_self a)
    have kept : (ls.filter fun l => ∀ k ∈ ls ++ [a], f k = f l → l.index ≤ k.index) =
        ls.filter fun l => ∀ k ∈ ls, f k = f l → l.index ≤ k.index := by
      refine List.filter_congr fun l hl => decide_eq_decide.2 ?_
      rw [List.forall_mem_append, List.forall_mem_singleton]
      exact and_iff_left fun _ => (before l hl).le
    have first_iff : (∀ k ∈ ls ++ [a], f k = f a → a.index ≤ k.index) ↔ f a ∉ ls.map f := by
      rw [List.forall_mem_append, List.forall_mem_singleton, List.mem_map]
      constructor
      · rintro ⟨first, -⟩ ⟨k, hk, hka⟩
        exact absurd (first k hk hka) (not_le.2 (before k hk))
      · exact fun fresh => ⟨fun k hk hka => absurd ⟨k, hk, hka⟩ fresh, fun _ => le_rfl⟩
    rw [List.map_append, List.map_singleton, eraseDups_append_singleton, List.filter_append, kept,
      List.map_append, ih sorted, List.filter_singleton]
    by_cases ha : f a ∈ ls.map f
    · rw [if_pos ha, decide_eq_false (mt first_iff.1 (not_not_intro ha))]
      exact (List.append_nil _).symm
    · rw [if_neg ha, decide_eq_true (first_iff.2 ha)]
      rfl

theorem Letter.sorted_all : Letter.all.Pairwise fun a b => a.index < b.index :=
  List.pairwise_map.2 (List.pairwise_lt_finRange 26)

namespace Valuation

variable {v : Valuation} {k l : Letter}

/-- The free classes, each as the set of its letters. -/
def freeClasses (v : Valuation) : Finset (Finset Letter) :=
  (Finset.univ.filter fun l => v.isDeclared l = true ∧ v.get l = .unknown).image
    fun l => Finset.univ.filter fun k => v.linked k l = true

/-- The first declared letter of each free class, in alphabetical order. -/
def leaders (v : Valuation) : List Letter :=
  v.declaredLetters.filter fun l =>
    v.get l = .unknown ∧ ∀ k, v.isDeclared k = true → v.linked k l = true → l.index ≤ k.index

theorem mem_leaders : l ∈ v.leaders ↔ v.isDeclared l = true ∧ v.get l = .unknown ∧
    ∀ k, v.isDeclared k = true → v.linked k l = true → l.index ≤ k.index := by
  rw [leaders, List.mem_filter, mem_declaredLetters, decide_eq_true_eq]

theorem sorted_declaredLetters (v : Valuation) : v.declaredLetters.Pairwise fun a b => a.index < b.index :=
  Letter.sorted_all.filter _

theorem sorted_leaders (v : Valuation) : v.leaders.Pairwise fun a b => a.index < b.index :=
  v.sorted_declaredLetters.filter _

theorem nodup_leaders (v : Valuation) : v.leaders.Nodup :=
  v.sorted_leaders.imp fun hab h => absurd (h ▸ hab) (lt_irrefl _)

theorem place_lt {i j : ℕ} (hk : v.leaders[i]? = some k) (hl : v.leaders[j]? = some l)
    (h : k.index < l.index) : i < j := by
  obtain ⟨hi, rfl⟩ := List.getElem?_eq_some_iff.1 hk
  obtain ⟨hj, rfl⟩ := List.getElem?_eq_some_iff.1 hl
  by_contra late
  rcases Nat.eq_or_lt_of_le (not_lt.1 late) with rfl | later
  · exact lt_irrefl _ h
  · exact lt_asymm h (List.pairwise_iff_getElem.1 v.sorted_leaders j i hj hi later)

theorem eq_of_linked_leaders (hk : k ∈ v.leaders) (hl : l ∈ v.leaders) (linked : v.linked k l = true) :
    k = l := by
  obtain ⟨declared_k, -, first_k⟩ := mem_leaders.1 hk
  obtain ⟨declared_l, -, first_l⟩ := mem_leaders.1 hl
  have le := first_k l declared_l (v.linked_comm k l ▸ linked)
  have ge := first_l k declared_k linked
  have same := le_antisymm le ge
  cases k
  cases l
  exact congrArg Letter.mk same

theorem exists_leader (declared : v.isDeclared l = true) (unknown : v.get l = .unknown) :
    ∃ k ∈ v.leaders, v.linked l k = true := by
  let members := Finset.univ.filter fun k => v.isDeclared k = true ∧ v.linked k l = true
  have nonempty : members.Nonempty := ⟨l, by simp [members, declared, linked_iff]⟩
  obtain ⟨k, hk, first⟩ := members.exists_min_image Letter.index nonempty
  obtain ⟨declared_k, linked⟩ : v.isDeclared k = true ∧ v.linked k l = true := by simpa [members] using hk
  refine ⟨k, mem_leaders.2 ⟨declared_k, get_eq_of_linked linked ▸ unknown, fun m hm hmk => ?_⟩,
    v.linked_comm k l ▸ linked⟩
  apply first m
  simp only [members, Finset.mem_filter, Finset.mem_univ, true_and]
  exact ⟨hm, linked_iff.2 ((linked_iff.1 hmk).trans (linked_iff.1 linked))⟩

theorem freeLetters_eq (v : Valuation) : v.freeLetters = v.leaders.map v.representative := by
  have unknown_sorted := v.sorted_declaredLetters.filter fun l => v.get l = .unknown
  rw [freeLetters, eraseDups_map unknown_sorted, leaders, List.filter_filter]
  refine congrArg _ (List.filter_congr fun l hl => ?_)
  rw [← Bool.decide_and, decide_eq_decide, and_comm]
  refine and_congr_right fun unknown => ?_
  simp only [List.mem_filter, mem_declaredLetters, decide_eq_true_eq, ← linked_iff]
  -- A letter linked to an unknown one is unknown.
  exact ⟨fun first k hk hkl => first k ⟨hk, get_eq_of_linked hkl ▸ unknown⟩ hkl,
    fun first k hk hkl => first k hk.1 hkl⟩

theorem length_leaders (v : Valuation) : v.leaders.length = v.freeClasses.card := by
  have image : v.freeClasses = v.leaders.toFinset.image
      fun l => Finset.univ.filter fun k => v.linked k l = true := by
    ext C
    simp only [freeClasses, Finset.mem_image, Finset.mem_filter, Finset.mem_univ, true_and, List.mem_toFinset]
    constructor
    · rintro ⟨l, ⟨declared, unknown⟩, rfl⟩
      obtain ⟨k, hk, hlk⟩ := exists_leader declared unknown
      exact ⟨k, hk, by simp only [linked_iff, linked_iff.1 hlk]⟩
    · rintro ⟨l, hl, rfl⟩
      obtain ⟨declared, unknown, -⟩ := mem_leaders.1 hl
      exact ⟨l, ⟨declared, unknown⟩, rfl⟩
  rw [image, Finset.card_image_of_injOn, List.toFinset_card_of_nodup v.nodup_leaders]
  intro k hk l hl same
  rw [Finset.mem_coe, List.mem_toFinset] at hk hl
  have own : k ∈ Finset.univ.filter fun m => v.linked m k = true := by simp [linked_iff]
  have linked := (Finset.ext_iff.1 same k).1 own
  exact eq_of_linked_leaders hk hl (by simpa using linked)

end Valuation

end FourValued
