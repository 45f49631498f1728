/-!
# Cutting a text at a separator

`cutOnce` cuts a text at a separator that must occur exactly once (`cutOnce_eq_some_iff`).
-/

namespace FourValued.Text

def cutOnce (x : Char) (cs : List Char) : Option (List Char × List Char) :=
  match cs.dropWhile (· != x) with
  | [] => none
  | _ :: after => if x ∈ after then none else some (cs.takeWhile (· != x), after)

theorem takeWhile_ne_append {x : Char} {a : List Char} (h : x ∉ a) (b : List Char) :
    (a ++ x :: b).takeWhile (· != x) = a ∧ (a ++ x :: b).dropWhile (· != x) = x :: b := by
  induction a with
  | nil => simp
  | cons c a ih =>
    have hc : c ≠ x := fun e => h (by simp [e])
    have ha : x ∉ a := fun e => h (by simp [e])
    simp [hc, ih ha]

theorem append_cons_inj {x : Char} {a b c d : List Char} (ha : x ∉ a) (hc : x ∉ c)
    (h : a ++ x :: b = c ++ x :: d) : a = c ∧ b = d := by
  have before := congrArg (List.takeWhile (· != x)) h
  have after := congrArg (List.dropWhile (· != x)) h
  rw [(takeWhile_ne_append ha b).1, (takeWhile_ne_append hc d).1] at before
  rw [(takeWhile_ne_append ha b).2, (takeWhile_ne_append hc d).2] at after
  exact ⟨before, (List.cons.inj after).2⟩

theorem not_mem_takeWhile_ne (x : Char) (cs : List Char) : x ∉ cs.takeWhile (· != x) := by
  induction cs with
  | nil => simp
  | cons c cs ih =>
    by_cases h : c = x
    · simp [h]
    · simp [h, ih, Ne.symm h]

theorem cutOnce_eq_some_iff {x : Char} {cs a b : List Char} :
    cutOnce x cs = some (a, b) ↔ cs = a ++ x :: b ∧ x ∉ a ∧ x ∉ b := by
  constructor
  · intro h
    rw [cutOnce] at h
    split at h
    · simp at h
    · next y after hd =>
      split at h
      · simp at h
      · next hb =>
        simp only [Option.some.injEq, Prod.mk.injEq] at h
        obtain ⟨rfl, rfl⟩ := h
        have hy : y = x := by
          have := List.head?_dropWhile_not (· != x) cs
          simpa [hd] using this
        refine ⟨?_, not_mem_takeWhile_ne x cs, hb⟩
        rw [← hy] at hd ⊢
        rw [← hd]
        exact List.takeWhile_append_dropWhile.symm
  · rintro ⟨rfl, ha, hb⟩
    have := takeWhile_ne_append ha b
    simp [cutOnce, this.1, this.2, hb]

theorem count_eq_one_of_cutOnce {x : Char} {cs : List Char} {sides : List Char × List Char}
    (h : cutOnce x cs = some sides) : cs.count x = 1 := by
  obtain ⟨rfl, ha, hb⟩ := cutOnce_eq_some_iff.1 h
  rw [List.count_append, List.count_cons_self, List.count_eq_zero.2 ha, List.count_eq_zero.2 hb]

theorem exists_count_of_cutOnce {x : Char} {cs : List Char} (h : cutOnce x cs = none) (mem : x ∈ cs) :
    ∃ n, cs.count x = n + 2 := by
  obtain ⟨a, b, rfl, ha⟩ := List.eq_append_cons_of_mem mem
  have hb : x ∈ b := Decidable.byContradiction fun hb => by
    rw [cutOnce_eq_some_iff.2 ⟨rfl, ha, hb⟩] at h
    cases h
  obtain ⟨n, hn⟩ : ∃ n, b.count x = n + 1 := Nat.exists_eq_add_one.2 (List.count_pos_iff.2 hb)
  exact ⟨n, by rw [List.count_append, List.count_cons_self, List.count_eq_zero.2 ha, hn, Nat.zero_add]⟩

end FourValued.Text
