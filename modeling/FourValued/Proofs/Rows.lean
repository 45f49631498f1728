import Mathlib.Data.List.Lex
import Mathlib.Data.Nat.Bitwise
import FourValued.Proofs.FreeClasses
import FourValued.Proofs.Soundness

/-!
# The rows of a truth table

Each row of a table assigns the digits of its number to the free classes, the first class the most
significant one, and leaves the other letters as they are (`get_assignment_leader`, `get_assignment_other`).
The first letter in which two rows differ is the leader of the first class in which their digits differ, so
the rows grow in the lexicographic order of their values, false before true. A cursor passes each row once.
-/

namespace FourValued

theorem exists_testBit_of_lt {i j n : ℕ} (hij : i < j) (hj : j < 2 ^ n) :
    ∃ m < n, i.testBit m = false ∧ j.testBit m = true ∧ ∀ k, m < k → i.testBit k = j.testBit k := by
  have differ : i ^^^ j ≠ 0 := by
    rw [Ne, Nat.xor_eq_zero_iff]
    exact hij.ne
  obtain ⟨m, at_m, above⟩ := Nat.exists_most_significant_bit differ
  have above : ∀ k, m < k → i.testBit k = j.testBit k := by
    intro k hk
    have same := above k hk
    rwa [Nat.testBit_xor, bne_eq_false_iff_eq] at same
  have inside : m < n := by
    by_contra outside
    have small : 2 ^ n ≤ 2 ^ m := Nat.pow_le_pow_right (by decide) (not_lt.1 outside)
    rw [Nat.testBit_xor, Nat.testBit_lt_two_pow (by omega : i < 2 ^ m),
      Nat.testBit_lt_two_pow (by omega : j < 2 ^ m)] at at_m
    cases at_m
  rw [Nat.testBit_xor, bne_iff_ne] at at_m
  cases hi : i.testBit m with
  | false =>
    rw [hi] at at_m
    exact ⟨m, inside, hi, by simpa using at_m.symm, above⟩
  | true =>
    rw [hi] at at_m
    have hjm : j.testBit m = false := by simpa using at_m.symm
    have larger := Nat.lt_of_testBit m hjm hi fun k hk => (above k hk).symm
    omega

namespace Valuation

variable {v : Valuation} {k l : Letter}

def assignAll (v : Valuation) (bs : List (Letter × Bool)) : Valuation :=
  bs.foldl (fun v p => v.assign p.1 p.2) v

theorem get_assign (v : Valuation) (l k : Letter) (b : Bool) :
    (v.assign l b).get k = if v.linked k l = true then .ofBool b else v.get k := by
  simp only [assign, get_put, linked_iff]

theorem get_assignAll {bs : List (Letter × Bool)} {b : Bool}
    (agree : ∀ p ∈ bs, v.linked k p.1 = true → p.2 = b) :
    (v.assignAll bs).get k = if ∃ p ∈ bs, v.linked k p.1 = true then .ofBool b else v.get k := by
  induction bs generalizing v with
  | nil => simp [assignAll]
  | cons p bs ih =>
    have linked : ∀ l, (v.assign p.1 p.2).linked k l = v.linked k l := fun l => linked_put v _ _ _ _
    rw [List.forall_mem_cons] at agree
    have rest := ih (v := v.assign p.1 p.2) fun q hq => (linked q.1).symm ▸ agree.2 q hq
    simp only [linked, get_assign] at rest
    refine Eq.trans rest ?_
    -- Should a later pair assign to the class as well, it assigns the same value.
    by_cases hp : v.linked k p.1 = true
    · simp [hp, agree.1 hp]
    · simp [hp]

theorem parent_assignAll (v : Valuation) (bs : List (Letter × Bool)) :
    (v.assignAll bs).parent = v.parent := by
  induction bs generalizing v with
  | nil => rfl
  | cons p bs ih => exact ih (v.assign p.1 p.2)

end Valuation

namespace Session

theorem grows_inferAll {t : Session} (h : t.valuation.Rooted) (calls : List (List String)) :
    t.valuation.Grows (t.inferAll calls).valuation :=
  inferAll_induction_of_rooted h (fun _ hv grown _ _ p _ => grown.trans (hv.grows_apply p)) (.refl _)

theorem inferAll_of_parse {s : String} {t : Session} (parsed : parse s = .ok t) (calls : List (List String)) :
    let u := t.inferAll calls
    u.valuation.Rooted ∧ ∃ e : Sentence, e.Derives s ∧ u.root = e.formula ∧
    ∀ l ∈ e.formula.letters, u.valuation.isDeclared l = true := by
  intro u
  obtain ⟨e, he, rfl⟩ := parse_eq_ok_iff.1 parsed
  have start : (Valuation.empty.declareAll e.formula.letters).Rooted := Valuation.rooted_empty.declareAll _
  have grown : (Valuation.empty.declareAll e.formula.letters).Grows u.valuation :=
    grows_inferAll (t := ⟨e.formula, _⟩) start calls
  refine ⟨rooted_inferAll start calls, e, he, root_inferAll _ calls, fun l hl => grown.declared l ?_⟩
  exact (Valuation.isDeclared_declareAll _ _ _).2 (.inl hl)

end Session

namespace TruthTable

variable {t : Session} {i j : ℕ} {c l : Letter}

def full (t : Session) : TruthTable := ⟨t, t.valuation.declaredLetters, t.valuation.freeLetters⟩

theorem result_full (t : Session) (i : ℕ) : ((full t).row i).result = t.root.eval ((full t).assignment i).get := rfl

theorem length_freeLetters (t : Session) : (full t).free.length = t.valuation.leaders.length := by
  rw [full, Valuation.freeLetters_eq, List.length_map]

theorem numRows_full (t : Session) : (full t).numRows = 2 ^ t.valuation.leaders.length := by
  rw [numRows, length_freeLetters, Nat.one_shiftLeft]

theorem ofSession_eq (t : Session) : ofSession t =
    if t.valuation.freeClasses.card ≤ maxFree then .ok (full t)
    else .error ⟨t.valuation.freeClasses.card, maxFree⟩ := by
  have length : t.valuation.freeLetters.length = t.valuation.freeClasses.card :=
    (length_freeLetters t).trans t.valuation.length_leaders
  rw [ofSession, length]
  rfl

theorem eq_full_of_ofSession {T : TruthTable} (tabulated : ofSession t = .ok T) : T = full t := by
  rw [ofSession_eq] at tabulated
  split at tabulated
  · exact (Except.ok.inj tabulated).symm
  · cases tabulated

def digit (t : Session) (i j : ℕ) : Bool := i.testBit (t.valuation.leaders.length - 1 - j)

theorem assignment_full (t : Session) (i : ℕ) : (full t).assignment i = t.valuation.assignAll
    (t.valuation.leaders.zipIdx.map fun p => (t.valuation.representative p.1, digit t i p.2)) := by
  rw [assignment, length_freeLetters, Valuation.assignAll, List.foldl_map]
  simp only [full, Valuation.freeLetters_eq, List.zipIdx_map, List.foldl_map]
  rfl

theorem get_assignment_leader (rooted : t.valuation.Rooted) (hl : t.valuation.leaders[j]? = some l)
    (linked : t.valuation.linked c l = true) (i : ℕ) :
    ((full t).assignment i).get c = .ofBool (digit t i j) := by
  rw [assignment_full, Valuation.get_assignAll (b := digit t i j), if_pos]
  · refine ⟨_, List.mem_map.2 ⟨(l, j), List.mem_zipIdx_iff_getElem?.2 hl, rfl⟩, ?_⟩
    rwa [rooted.linked_representative_right]
  · intro p hp linked_p
    obtain ⟨⟨k, m⟩, hk, rfl⟩ := List.mem_map.1 hp
    have hk : t.valuation.leaders[m]? = some k := List.mem_zipIdx_iff_getElem?.1 hk
    rw [rooted.linked_representative_right] at linked_p
    have both : t.valuation.linked k l = true := by
      rw [Valuation.linked_iff] at linked linked_p ⊢
      exact linked_p.symm.trans linked
    have same := Valuation.eq_of_linked_leaders (List.mem_of_getElem? hk) (List.mem_of_getElem? hl) both
    have place : m = j := (List.getElem?_inj (List.getElem?_eq_some_iff.1 hk).1
      t.valuation.nodup_leaders).1 (hk.trans (same ▸ hl.symm))
    rw [place]

theorem get_assignment_other (rooted : t.valuation.Rooted)
    (other : ∀ l ∈ t.valuation.leaders, t.valuation.linked c l = false) (i : ℕ) :
    ((full t).assignment i).get c = t.valuation.get c := by
  have untouched : ∀ p ∈ t.valuation.leaders.zipIdx.map
      (fun p => (t.valuation.representative p.1, digit t i p.2)), ¬ t.valuation.linked c p.1 = true := by
    intro p hp
    obtain ⟨⟨k, m⟩, hk, rfl⟩ := List.mem_map.1 hp
    rw [rooted.linked_representative_right,
      other k (List.mem_of_getElem? (List.mem_zipIdx_iff_getElem?.1 hk))]
    exact Bool.false_ne_true
  rw [assignment_full, Valuation.get_assignAll (b := false) fun p hp linked => absurd linked (untouched p hp),
    if_neg]
  rintro ⟨p, hp, linked⟩
  exact untouched p hp linked

def column (t : TruthTable) (r : Row) (l : Letter) : Option TruthValue := (t.columns.zip r.values).lookup l

theorem column_row (t : TruthTable) {l : Letter} (hl : l ∈ t.columns) (i : ℕ) :
    t.column (t.row i) l = some ((t.assignment i).get l) := by
  rw [column, row, ← List.map_prod_left_eq_zip]
  exact List.lookup_graph _ hl

theorem column_full (declared : t.valuation.isDeclared c = true) (i : ℕ) :
    (full t).column ((full t).row i) c = some (((full t).assignment i).get c) :=
  column_row (full t) (Valuation.mem_declaredLetters.2 declared) i

theorem Cursor.skip_eq (c : Cursor) (inside : c.passed ≤ c.table.numRows) (n : ℕ) :
    c.skip n = ⟨c.table, min (c.passed + n) c.table.numRows⟩ := by
  induction n generalizing c with
  | zero => rw [skip, Nat.add_zero, Nat.min_eq_left inside]
  | succ n ih =>
    rw [skip, next?]
    by_cases more : c.passed < c.table.numRows
    · rw [if_pos more]
      dsimp only
      rw [ih _ (Nat.succ_le_of_lt more), Nat.add_assoc, Nat.add_comm 1 n]
    · rw [if_neg more]
      dsimp only
      obtain ⟨t, passed⟩ := c
      dsimp only at inside more ⊢
      congr 1
      omega

/-- The first difference of two lists of values is one of false from true. -/
def Precedes : List TruthValue → List TruthValue → Prop := List.Lex fun x y => x = .ff ∧ y = .tt

theorem Precedes.ne {xs ys : List TruthValue} (h : Precedes xs ys) : xs ≠ ys := by
  rintro rfl
  refine List.lex_irrefl (fun x hx => ?_) xs h
  cases hx.1.symm.trans hx.2

theorem precedes_map {ls : List Letter} {f g : Letter → TruthValue}
    (sorted : ls.Pairwise fun a b => a.index < b.index) (hl : l ∈ ls) (at_l : f l = .ff ∧ g l = .tt)
    (before : ∀ k ∈ ls, k.index < l.index → f k = g k) : Precedes (ls.map f) (ls.map g) := by
  obtain ⟨first, rest, rfl⟩ := List.append_of_mem hl
  obtain ⟨-, -, earlier⟩ := List.pairwise_append.1 sorted
  have same : first.map f = first.map g := List.map_congr_left fun k hk =>
    before k (List.mem_append_left _ hk) (earlier k hk l List.mem_cons_self)
  have later : Precedes ((l :: rest).map f) ((l :: rest).map g) := .rel at_l
  rw [List.map_append, List.map_append, same]
  exact List.Lex.append_left _ later _

theorem row_precedes_row (rooted : t.valuation.Rooted) (hij : i < j)
    (hj : j < 2 ^ t.valuation.leaders.length) :
    Precedes ((full t).row i).values ((full t).row j).values := by
  -- `l` leads the first class in which the rows differ; a column before it is of an earlier class or fixed.
  obtain ⟨m, hm, zero, one, above⟩ := exists_testBit_of_lt hij hj
  obtain ⟨l, hl⟩ : ∃ l, t.valuation.leaders[t.valuation.leaders.length - 1 - m]? = some l :=
    ⟨_, List.getElem?_eq_getElem (by omega)⟩
  have own : t.valuation.linked l l = true := Valuation.linked_iff.2 rfl
  have top : t.valuation.leaders.length - 1 - (t.valuation.leaders.length - 1 - m) = m := by omega
  have declared := (Valuation.mem_leaders.1 (List.mem_of_getElem? hl)).1
  refine precedes_map t.valuation.sorted_declaredLetters (Valuation.mem_declaredLetters.2 declared) ?_ ?_
  · rw [get_assignment_leader rooted hl own, get_assignment_leader rooted hl own, digit, digit, top, zero, one]
    exact ⟨rfl, rfl⟩
  · intro c hc earlier
    by_cases free : ∃ k ∈ t.valuation.leaders, t.valuation.linked c k = true
    · obtain ⟨k, hk, linked⟩ := free
      obtain ⟨p, hp⟩ := List.getElem?_of_mem hk
      have first := (Valuation.mem_leaders.1 hk).2.2 c (Valuation.mem_declaredLetters.1 hc) linked
      have place := Valuation.place_lt hp hl (lt_of_le_of_lt first earlier)
      rw [get_assignment_leader rooted hp linked, get_assignment_leader rooted hp linked, digit, digit,
        above _ (by omega)]
    · push Not at free
      have other : ∀ k ∈ t.valuation.leaders, t.valuation.linked c k = false :=
        fun k hk => Bool.eq_false_iff.2 (free k hk)
      rw [get_assignment_other rooted other, get_assignment_other rooted other]

/-- The table `T` has a row for each way to decide the `k` free classes of the session. -/
structure Enumerates (T : TruthTable) (t : Session) (k : ℕ) : Prop where
  columns : T.columns = t.valuation.declaredLetters
  classes : t.valuation.leaders.length = k
  numRows : T.numRows = 2 ^ k
  rows : T.rows = (List.range (2 ^ k)).map T.row
  next : ∀ n, (T.cursor.skip n).next? =
    if n < 2 ^ k then some (T.row n, T.cursor.skip (n + 1)) else none
  remaining : ∀ n, (T.cursor.skip n).remaining = 2 ^ k - min n (2 ^ k)
  width : ∀ i < 2 ^ k, (T.row i).values.length = T.columns.length
  free : ∀ i < 2 ^ k, ∀ j l, t.valuation.leaders[j]? = some l → ∀ c, t.valuation.isDeclared c = true →
    t.valuation.linked c l = true → T.column (T.row i) c = some (.ofBool (i.testBit (k - 1 - j)))
  fixed : ∀ i < 2 ^ k, ∀ c, t.valuation.isDeclared c = true →
    (∀ l ∈ t.valuation.leaders, t.valuation.linked c l = false) →
    T.column (T.row i) c = some (t.valuation.get c)
  result : ∀ i < 2 ^ k, ∀ value : Letter → TruthValue,
    (∀ c, t.valuation.isDeclared c = true → T.column (T.row i) c = some (value c)) →
    (T.row i).result = t.root.eval value
  increasing : ∀ i j, i < j → j < 2 ^ k →
    Precedes (T.row i).values (T.row j).values ∧ (T.row i).values ≠ (T.row j).values

theorem enumerates_full (rooted : t.valuation.Rooted)
    (declared : ∀ l ∈ t.root.letters, t.valuation.isDeclared l = true) :
    (full t).Enumerates t t.valuation.freeClasses.card := by
  rw [← t.valuation.length_leaders]
  have number := numRows_full t
  have skip : ∀ n, (full t).cursor.skip n = ⟨full t, min n (2 ^ t.valuation.leaders.length)⟩ := by
    intro n
    have passed := Cursor.skip_eq (full t).cursor (Nat.zero_le _) n
    rwa [cursor, Nat.zero_add, number] at passed
  refine ⟨rfl, rfl, number, ?_, fun n => ?_, fun n => ?_, fun i _ => List.length_map _,
    fun i _ j l hl c hc linked => ?_, fun i _ c hc other => ?_, fun i _ value agree => ?_, fun i j hij hj => ?_⟩
  · rw [TruthTable.rows, number]
  · rw [skip, skip, Cursor.next?, number]
    dsimp only
    by_cases more : n < 2 ^ t.valuation.leaders.length
    · rw [Nat.min_eq_left more.le, Nat.min_eq_left more, if_pos more]
    · rw [Nat.min_eq_right (not_lt.1 more), if_neg (lt_irrefl _), if_neg more]
  · rw [skip, Cursor.remaining, number]
  · rw [column_full hc, get_assignment_leader rooted hl linked]
    rfl
  · rw [column_full hc, get_assignment_other rooted other]
  · refine Formula.eval_congr _ fun l hl => ?_
    have value_eq := agree l (declared l hl)
    rw [column_full (declared l hl)] at value_eq
    exact Option.some.inj value_eq
  · have precedes := row_precedes_row rooted hij hj
    exact ⟨precedes, precedes.ne⟩

theorem message_eq (n : ℕ) : (⟨n, 16⟩ : TooManyVariables).message =
    "Too many free variables for a truth table: " ++ toString n ++ " (at most 16)" := by
  have bound : " (at most " ++ (toString 16 ++ ")") = " (at most 16)" := by decide
  unfold TooManyVariables.message
  dsimp only
  rw [String.append_assoc, String.append_assoc, bound]

/-- A session with more than sixteen free classes has no truth table, and the refusal tells their number. Any
other has one, which decides the free classes in each way once, in lexicographic order. -/
theorem ofSession_enumerates {s : String} {t : Session} (parsed : Session.parse s = .ok t)
    (calls : List (List String)) :
    let u := t.inferAll calls
    let k := u.valuation.freeClasses.card
    (16 < k → ofSession u = .error ⟨k, 16⟩) ∧
    (⟨k, 16⟩ : TooManyVariables).message =
      "Too many free variables for a truth table: " ++ toString k ++ " (at most 16)" ∧
    (k ≤ 16 → ∃ T, ofSession u = .ok T ∧ T.Enumerates u k) := by
  intro u k
  obtain ⟨rooted, e, -, root, declared⟩ := Session.inferAll_of_parse parsed calls
  refine ⟨fun many => ?_, ?_, fun few => ⟨full u, ?_, enumerates_full rooted ?_⟩⟩
  · exact (ofSession_eq u).trans (if_neg (not_le.2 many))
  · exact message_eq k
  · exact (ofSession_eq u).trans (if_pos few)
  · rwa [root]

theorem ofSession_enumerates_alias :
    let s := "~(b & c) & a"
    let f := Formula.binary .and (.binary .or (.neg (.var ⟨1⟩)) (.neg (.var ⟨2⟩))) (.var ⟨0⟩)
    let t : Session := ⟨f, Valuation.empty.declareAll f.letters⟩
    let calls := [["C = A", "D"], ["E > ~D"]]
    let u := t.inferAll calls
    let k := u.valuation.freeClasses.card
    Session.parse s = .ok t ∧ u.valuation.leaders = [⟨0⟩, ⟨1⟩] ∧ u.valuation.freeLetters = [⟨2⟩, ⟨1⟩] ∧
    (16 < k → ofSession u = .error ⟨k, 16⟩) ∧
    (⟨k, 16⟩ : TooManyVariables).message =
      "Too many free variables for a truth table: " ++ toString k ++ " (at most 16)" ∧
    (k ≤ 16 → ∃ T, ofSession u = .ok T ∧ T.Enumerates u k) := by
  intro s f t calls u k
  let e : Sentence := .plain (.binary .and
    (.neg (.group (.binary .and (.letter ⟨1⟩) (.single (.letter ⟨2⟩))))) (.single (.letter ⟨0⟩)))
  have derives : e.Derives s := by decide
  have parsed : Session.parse s = .ok t := Session.parse_eq_ok_iff.2 ⟨_, derives, rfl⟩
  obtain ⟨leaders, free⟩ : u.valuation.leaders = [⟨0⟩, ⟨1⟩] ∧ u.valuation.freeLetters = [⟨2⟩, ⟨1⟩] := by
    decide +kernel
  exact ⟨parsed, leaders, free, ofSession_enumerates parsed calls⟩

end TruthTable

end FourValued
