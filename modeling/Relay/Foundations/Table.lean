import Mathlib.Algebra.GroupWithZero.Nat
import Mathlib.Algebra.BigOperators.Group.Finset.Piecewise
import Mathlib.Algebra.Order.BigOperators.Group.Finset
import Mathlib.Data.Finset.Card
import Mathlib.Data.List.Sort

/-!
# Tables of rows with a key

A table is the list of its rows in the order of insertion. `lookup` finds the row with a key,
`updateWhere` is an SQL `UPDATE` with a `WHERE` clause, `touched` the rows such an update returns,
and `selectOrdered` a `SELECT` with an `ORDER BY` clause. The main rule is `lookup_updateWhere`: an
update that keeps the keys acts on each key on its own, so a table can be followed one row at a
time. `selectOrdered_and` says that taking rows out of a selection leaves the others in their
order, and `updateWhere_map`, `touched_map` and `selectOrdered_map` carry all three over to an image
of the rows. `countP_le_add_card` and `countP_congr` compare a `COUNT(*)` on two tables key by key,
`sum_add_card_le_add` and `sum_add_card_eq` a sum over their rows, and `assign_groupCounts` says
what a loop over a `GROUP BY` makes of its rows.
-/

set_option autoImplicit false
set_option relaxedAutoImplicit false

namespace Relay.Foundations.Table

variable {α κ : Type*}

/-! ### Updates -/

section Update

variable (p : α → Prop) [DecidablePred p] (set : α → α)

/-- `UPDATE … SET set WHERE p`. -/
def updateWhere (rows : List α) : List α := rows.map fun row ↦ if p row then set row else row

/-- The rows `UPDATE … SET set WHERE p RETURNING *` returns; their number is the row count. -/
def touched (rows : List α) : List α := (rows.filter fun row ↦ p row).map set

variable {p set}

theorem mem_updateWhere {rows : List α} {row : α} :
    row ∈ updateWhere p set rows ↔ ∃ old ∈ rows, (if p old then set old else old) = row :=
  List.mem_map

theorem updateWhere_of_forall_not {rows : List α} (h : ∀ row ∈ rows, ¬ p row) :
    updateWhere p set rows = rows := by
  unfold updateWhere
  conv_rhs => rw [← List.map_id rows]
  refine List.map_congr_left fun row hrow ↦ ?_
  rw [if_neg (h row hrow), id]

/-- Rows that the update takes out of a selection are those of the selection it does not match. -/
theorem filter_updateWhere {q : α → Prop} [DecidablePred q] (hleaves : ∀ row, p row → ¬ q (set row))
    (rows : List α) :
    ((updateWhere p set rows).filter fun row ↦ q row) = rows.filter fun row ↦ q row ∧ ¬ p row := by
  induction rows with
  | nil => rfl
  | cons row rest ih =>
    rw [updateWhere, List.map_cons, ← updateWhere, List.filter_cons, List.filter_cons, ih]
    by_cases hp : p row
    · simp [hp, hleaves row hp]
    · simp [hp]

/-- An update that a selection cannot see may be made after the selection. -/
theorem filter_updateWhere_of_iff {q : α → Prop} [DecidablePred q]
    (hkeeps : ∀ row, q (set row) ↔ q row) (rows : List α) :
    ((updateWhere p set rows).filter fun row ↦ q row) =
      updateWhere p set (rows.filter fun row ↦ q row) := by
  unfold updateWhere
  rw [List.filter_map]
  refine congrArg _ (List.filter_congr fun row _ ↦ ?_)
  by_cases hp : p row <;> simp [hp, hkeeps]

theorem updateWhere_congr {q : α → Prop} [DecidablePred q] {rows : List α}
    (h : ∀ row ∈ rows, p row ↔ q row) : updateWhere p set rows = updateWhere q set rows := by
  refine List.map_congr_left fun row hrow ↦ ?_
  simp only [h row hrow]

theorem touched_congr {q : α → Prop} [DecidablePred q] {rows : List α}
    (h : ∀ row ∈ rows, p row ↔ q row) : touched p set rows = touched q set rows := by
  refine congrArg _ (List.filter_congr fun row hrow ↦ ?_)
  simp only [h row hrow]

theorem touched_eq_nil_iff {rows : List α} : touched p set rows = [] ↔ ∀ row ∈ rows, ¬ p row := by
  simp [touched]

/-- Two updates that write the same, one after the other, are one, where the second leaves out the
rows the first has written. -/
theorem updateWhere_updateWhere {q : α → Prop} [DecidablePred q]
    (hleaves : ∀ row, p row → ¬ q (set row)) (rows : List α) :
    updateWhere q set (updateWhere p set rows) =
      updateWhere (fun row ↦ p row ∨ q row) set rows := by
  unfold updateWhere
  rw [List.map_map]
  refine List.map_congr_left fun row _ ↦ ?_
  by_cases hp : p row
  · simp [hp, hleaves row hp]
  · simp [hp]

/-- They touch each row once. -/
theorem length_touched_add {q : α → Prop} [DecidablePred q]
    (hleaves : ∀ row, p row → ¬ q (set row)) (rows : List α) :
    (touched p set rows).length + (touched q set (updateWhere p set rows)).length =
      (touched (fun row ↦ p row ∨ q row) set rows).length := by
  simp only [touched, List.length_map]
  induction rows with
  | nil => rfl
  | cons row rest ih =>
    rw [updateWhere, List.map_cons, ← updateWhere]
    by_cases hp : p row
    · simp only [List.filter_cons, hp, hleaves row hp, decide_true, decide_false, if_true,
        true_or, List.length_cons, Bool.false_eq_true, if_false]
      omega
    · by_cases hq : q row
      · simp only [List.filter_cons, hp, hq, decide_true, decide_false, if_true, or_true,
          List.length_cons, Bool.false_eq_true, if_false]
        omega
      · simpa only [List.filter_cons, hp, hq, or_self, decide_false, Bool.false_eq_true, if_false]
          using ih

theorem mem_touched {rows : List α} {row : α} :
    row ∈ touched p set rows ↔ ∃ old ∈ rows, p old ∧ set old = row := by
  simp [touched, and_assoc]

/-- A constraint on pairs of rows that only reads columns kept by the update survives it. -/
theorem pairwise_updateWhere {rel : α → α → Prop} {rows : List α}
    (keeps : ∀ a b, rel a b → rel (if p a then set a else a) (if p b then set b else b))
    (h : rows.Pairwise rel) : (updateWhere p set rows).Pairwise rel :=
  List.pairwise_map.mpr (h.imp fun {a b} hab ↦ keeps a b hab)

end Update

section Apart

variable {p : α → Prop} {set : α → α} {q : α → Prop} {set' : α → α}

/-- Two updates that never match the same row: what one matches the other does not match, neither
before it is written nor after. -/
structure Apart (p : α → Prop) (set : α → α) (q : α → Prop) (set' : α → α) : Prop where
  left : ∀ row, p row → ¬ q row ∧ ¬ q (set row)
  right : ∀ row, q row → ¬ p row ∧ ¬ p (set' row)

theorem Apart.symm (h : Apart p set q set') : Apart q set' p set := ⟨h.right, h.left⟩

variable [DecidablePred p] [DecidablePred q]

/-- Updates that are apart may be run in either order. -/
theorem Apart.updateWhere_comm (h : Apart p set q set') (rows : List α) :
    updateWhere q set' (updateWhere p set rows) = updateWhere p set (updateWhere q set' rows) := by
  simp only [updateWhere, List.map_map]
  refine List.map_congr_left fun row _ ↦ ?_
  by_cases hp : p row
  · simp [hp, h.left row hp]
  · by_cases hq : q row
    · simp [hp, hq, h.right row hq]
    · simp [hp, hq]

/-- An update returns the same rows after one that is apart from it as before. -/
theorem Apart.touched_updateWhere (h : Apart p set q set') (rows : List α) :
    touched q set' (updateWhere p set rows) = touched q set' rows := by
  have hkept : ∀ row, (q row ∧ ¬ p row) ↔ q row :=
    fun row ↦ and_iff_left_of_imp fun hq ↦ (h.right row hq).1
  have hleaves : ∀ row, p row → ¬ q (set row) := fun row hp ↦ (h.left row hp).2
  rw [touched, touched, filter_updateWhere hleaves]
  simp only [hkept]

end Apart

/-! ### Keys -/

variable [DecidableEq κ] {key : α → κ}

/-- The row with a key, if there is one. -/
def lookup (key : α → κ) (k : κ) (rows : List α) : Option α := rows.find? fun row ↦ key row = k

theorem key_of_lookup {k : κ} {rows : List α} {row : α} (h : lookup key k rows = some row) :
    key row = k := by
  simpa using List.find?_some h

theorem mem_of_lookup {k : κ} {rows : List α} {row : α} (h : lookup key k rows = some row) :
    row ∈ rows := List.mem_of_find?_eq_some h

theorem lookup_eq_none_iff {k : κ} {rows : List α} :
    lookup key k rows = none ↔ ∀ row ∈ rows, key row ≠ k := by
  simp [lookup]

/-- Where the keys are distinct, a row is found under its own key. -/
theorem lookup_of_mem {rows : List α} (distinct : rows.Pairwise fun a b ↦ key a ≠ key b) {row : α}
    (h : row ∈ rows) : lookup key (key row) rows = some row := by
  induction rows with
  | nil => simp at h
  | cons first rest ih =>
    obtain ⟨hfirst, hrest⟩ := List.pairwise_cons.mp distinct
    rcases List.mem_cons.mp h with rfl | h
    · simp [lookup]
    · have hne : key first ≠ key row := hfirst row h
      simpa [lookup, hne] using ih hrest h

theorem lookup_eq_some_iff {rows : List α} (distinct : rows.Pairwise fun a b ↦ key a ≠ key b)
    {k : κ} {row : α} : lookup key k rows = some row ↔ row ∈ rows ∧ key row = k := by
  constructor
  · intro h
    exact ⟨mem_of_lookup h, key_of_lookup h⟩
  · rintro ⟨h, rfl⟩
    exact lookup_of_mem distinct h

/-- A condition that only rows with the key of a matching row meet selects that row alone. -/
theorem filter_eq_singleton {rows : List α} (distinct : rows.Pairwise fun a b ↦ key a ≠ key b)
    {p : α → Prop} [DecidablePred p] {row : α} (hrow : row ∈ rows) (hp : p row)
    (hkey : ∀ other, p other → key other = key row) :
    (rows.filter fun other ↦ p other) = [row] := by
  have hnodup : (rows.filter fun other ↦ p other).Nodup :=
    (distinct.imp fun {_ _} h heq ↦ h (congrArg key heq)).filter _
  refine List.Perm.eq_singleton ((List.perm_ext_iff_of_nodup hnodup
    (List.nodup_singleton row)).mpr fun other ↦ ?_)
  simp only [List.mem_filter, decide_eq_true_eq, List.mem_singleton]
  constructor
  · rintro ⟨hother, hmatch⟩
    have hfound := lookup_of_mem distinct hother
    rw [hkey other hmatch, lookup_of_mem distinct hrow] at hfound
    exact (Option.some.inj hfound).symm
  · rintro rfl
    exact ⟨hrow, hp⟩

/-- The rows with a key are the one that is found under it. -/
theorem filter_key {rows : List α} (distinct : rows.Pairwise fun a b ↦ key a ≠ key b) (k : κ) :
    (rows.filter fun row ↦ key row = k) = (lookup key k rows).toList := by
  cases hrow : lookup key k rows with
  | none =>
    refine List.filter_eq_nil_iff.mpr fun row hmem ↦ ?_
    simpa using lookup_eq_none_iff.mp hrow row hmem
  | some row =>
    obtain ⟨hmem, rfl⟩ := (lookup_eq_some_iff distinct).mp hrow
    exact filter_eq_singleton distinct hmem rfl fun _ hkey ↦ hkey

/-- An update that keeps the keys acts on each key on its own. -/
theorem lookup_updateWhere {p : α → Prop} [DecidablePred p] {set : α → α}
    (keeps : ∀ row, key (set row) = key row) (k : κ) (rows : List α) :
    lookup key k (updateWhere p set rows) =
      (lookup key k rows).map fun row ↦ if p row then set row else row := by
  have hkey : ∀ row, key (if p row then set row else row) = key row := by
    intro row
    by_cases h : p row <;> simp [h, keeps]
  rw [lookup, updateWhere, List.find?_map]
  simp only [Function.comp_def, hkey]
  rfl

theorem lookup_append_singleton (k : κ) (rows : List α) (new : α) :
    lookup key k (rows ++ [new]) =
      (lookup key k rows).or (if key new = k then some new else none) := by
  rw [lookup, List.find?_append]
  by_cases h : key new = k <;> simp [lookup, h]

/-! ### Ordered selections -/

section Order

variable (le : α → α → Prop) [DecidableRel le]

/-- `SELECT … WHERE p ORDER BY le`. -/
def selectOrdered (p : α → Prop) [DecidablePred p] (rows : List α) : List α :=
  (rows.filter fun row ↦ p row).insertionSort le

variable {le} {p : α → Prop} [DecidablePred p] {rows : List α}

theorem selectOrdered_perm : (selectOrdered le p rows).Perm (rows.filter fun row ↦ p row) :=
  List.perm_insertionSort le _

@[simp] theorem mem_selectOrdered {row : α} :
    row ∈ selectOrdered le p rows ↔ row ∈ rows ∧ p row := by
  rw [selectOrdered_perm.mem_iff]
  simp

variable [Std.Total le] [IsTrans α le]

theorem selectOrdered_pairwise : (selectOrdered le p rows).Pairwise le :=
  List.pairwise_insertionSort le _

/-- A further condition takes rows out of a selection and leaves the others in their order. -/
theorem selectOrdered_and {q : α → Prop} [DecidablePred q]
    (antisymm : ∀ a ∈ rows, ∀ b ∈ rows, le a b → le b a → a = b) :
    selectOrdered le (fun row ↦ p row ∧ q row) rows =
      (selectOrdered le p rows).filter fun row ↦ q row := by
  refine List.Perm.eq_of_pairwise ?_ selectOrdered_pairwise (selectOrdered_pairwise.filter _) ?_
  · intro a b ha hb
    have hb' := (List.mem_filter.mp hb).1
    exact antisymm a (mem_selectOrdered.mp ha).1 b (mem_selectOrdered.mp hb').1
  · refine selectOrdered_perm.trans (List.Perm.trans ?_ (selectOrdered_perm.filter _).symm)
    rw [List.filter_filter]
    simp [Bool.and_comm]

end Order

/-! ### Images -/

section Map

variable {β : Type*} {f : α → β} {p : α → Prop} [DecidablePred p] {p' : β → Prop}
  [DecidablePred p'] {set : α → α} {set' : β → β}

/-- A map that an update cannot tell from the identity may be made before or after it. -/
theorem updateWhere_map (hp : ∀ row, p' (f row) ↔ p row)
    (hset : ∀ row, set' (f row) = f (set row)) (rows : List α) :
    updateWhere p' set' (rows.map f) = (updateWhere p set rows).map f := by
  unfold updateWhere
  rw [List.map_map, List.map_map]
  refine List.map_congr_left fun row _ ↦ ?_
  by_cases h : p row <;> simp [hp, hset, h]

theorem touched_map (hp : ∀ row, p' (f row) ↔ p row)
    (hset : ∀ row, set' (f row) = f (set row)) (rows : List α) :
    touched p' set' (rows.map f) = (touched p set rows).map f := by
  unfold touched
  rw [List.filter_map, List.map_map, List.map_map]
  simp only [Function.comp_def, hp, hset]

theorem selectOrdered_map {le : α → α → Prop} [DecidableRel le] {le' : β → β → Prop}
    [DecidableRel le'] (hle : ∀ a b, le' (f a) (f b) ↔ le a b) (hp : ∀ row, p' (f row) ↔ p row)
    (rows : List α) : selectOrdered le' p' (rows.map f) = (selectOrdered le p rows).map f := by
  unfold selectOrdered
  rw [List.filter_map, List.map_insertionSort le le' f _ fun a _ b _ ↦ (hle a b).symm]
  simp only [Function.comp_def, hp]

end Map

/-! ### Counts -/

section Count

variable {q : α → Prop} [DecidablePred q] {rows rows' : List α}

/-- The keys of the rows with a property. -/
def keysWhere (key : α → κ) (q : α → Prop) [DecidablePred q] (rows : List α) : Finset κ :=
  ((rows.filter fun row ↦ q row).map key).toFinset

theorem mem_keysWhere (distinct : rows.Pairwise fun a b ↦ key a ≠ key b) {k : κ} :
    k ∈ keysWhere key q rows ↔ ∃ row, lookup key k rows = some row ∧ q row := by
  simp only [keysWhere, List.mem_toFinset, List.mem_map, List.mem_filter, decide_eq_true_eq,
    lookup_eq_some_iff distinct]
  constructor
  · rintro ⟨row, ⟨hrow, hq⟩, hkey⟩
    exact ⟨row, ⟨hrow, hkey⟩, hq⟩
  · rintro ⟨row, ⟨hrow, hkey⟩, hq⟩
    exact ⟨row, ⟨hrow, hq⟩, hkey⟩

/-- Where the keys are distinct, rows are counted by their keys. -/
theorem card_keysWhere (distinct : rows.Pairwise fun a b ↦ key a ≠ key b) :
    (keysWhere key q rows).card = rows.countP fun row ↦ q row := by
  have hnodup : ((rows.filter fun row ↦ q row).map key).Nodup :=
    List.pairwise_map.mpr (distinct.filter _)
  rw [keysWhere, List.toFinset_card_of_nodup hnodup, List.length_map, List.countP_eq_length_filter]

/-- A count exceeds the one on another table by no more than the number of keys that are new to
it. -/
theorem countP_le_add_card (distinct : rows.Pairwise fun a b ↦ key a ≠ key b)
    (distinct' : rows'.Pairwise fun a b ↦ key a ≠ key b) {extra : Finset κ}
    (h : ∀ k row, lookup key k rows' = some row → q row →
      (∃ old, lookup key k rows = some old ∧ q old) ∨ k ∈ extra) :
    (rows'.countP fun row ↦ q row) ≤ (rows.countP fun row ↦ q row) + extra.card := by
  have hsub : keysWhere key q rows' ⊆ keysWhere key q rows ∪ extra := by
    intro k hk
    obtain ⟨row, hrow, hq⟩ := (mem_keysWhere distinct').mp hk
    rw [Finset.mem_union, mem_keysWhere distinct]
    exact h k row hrow hq
  calc (rows'.countP fun row ↦ q row)
      = (keysWhere key q rows').card := (card_keysWhere distinct').symm
    _ ≤ (keysWhere key q rows ∪ extra).card := Finset.card_le_card hsub
    _ ≤ (keysWhere key q rows).card + extra.card := Finset.card_union_le _ _
    _ = (rows.countP fun row ↦ q row) + extra.card := by rw [card_keysWhere distinct]

/-- Two tables with the property under the same keys have the same count. -/
theorem countP_congr (distinct : rows.Pairwise fun a b ↦ key a ≠ key b)
    (distinct' : rows'.Pairwise fun a b ↦ key a ≠ key b)
    (h : ∀ k, (∃ row, lookup key k rows' = some row ∧ q row) ↔
      ∃ row, lookup key k rows = some row ∧ q row) :
    (rows'.countP fun row ↦ q row) = rows.countP fun row ↦ q row := by
  have hkeys : keysWhere key q rows' = keysWhere key q rows := by
    ext k
    rw [mem_keysWhere distinct', mem_keysWhere distinct, h]
  rw [← card_keysWhere distinct', hkeys, card_keysWhere distinct]

end Count

section Sum

variable {rows rows' : List α}

/-- Where the keys are distinct, a sum over the rows is a sum over any keys that include theirs. -/
theorem sum_map_eq_sum_lookup (distinct : rows.Pairwise fun a b ↦ key a ≠ key b) {keys : Finset κ}
    (hkeys : ∀ row ∈ rows, key row ∈ keys) (measure : α → ℕ) :
    (rows.map measure).sum = ∑ k ∈ keys, (lookup key k rows).elim 0 measure := by
  induction rows with
  | nil => exact (Finset.sum_eq_zero fun k _ ↦ rfl).symm
  | cons first rest ih =>
    obtain ⟨hfirst, hrest⟩ := List.pairwise_cons.mp distinct
    have hsplit : ∀ k, (lookup key k (first :: rest)).elim 0 measure =
        (if key first = k then measure first else 0) + (lookup key k rest).elim 0 measure := by
      intro k
      by_cases hk : key first = k
      · have hnone : lookup key k rest = none :=
          lookup_eq_none_iff.mpr fun row hrow heq ↦ hfirst row hrow (hk.trans heq.symm)
        rw [hnone]
        simp [lookup, hk]
      · simp [lookup, hk]
    rw [List.map_cons, List.sum_cons,
      ih hrest fun row hrow ↦ hkeys row (List.mem_cons_of_mem _ hrow),
      Finset.sum_congr rfl fun k _ ↦ hsplit k, Finset.sum_add_distrib, Finset.sum_ite_eq,
      if_pos (hkeys first (List.mem_cons_self ..))]

/-- The sum over the rows and the number of some keys, key by key. -/
theorem sum_map_add_card (distinct : rows.Pairwise fun a b ↦ key a ≠ key b)
    {keys changed : Finset κ} (hkeys : ∀ row ∈ rows, key row ∈ keys) (hchanged : changed ⊆ keys)
    (measure : α → ℕ) :
    (rows.map measure).sum + changed.card =
      ∑ k ∈ keys, ((lookup key k rows).elim 0 measure + if k ∈ changed then 1 else 0) := by
  rw [sum_map_eq_sum_lookup distinct hkeys, Finset.sum_add_distrib, Finset.sum_ite_mem,
    Finset.inter_eq_right.mpr hchanged, Finset.card_eq_sum_ones]

/-- Where the measure has gone up by no more than one at some keys and by nothing elsewhere, and has
gone down at some keys, the sum over the rows has changed by no more than the numbers of these
keys. -/
theorem sum_add_card_le_add (distinct : rows.Pairwise fun a b ↦ key a ≠ key b)
    (distinct' : rows'.Pairwise fun a b ↦ key a ≠ key b) {measure : α → ℕ} {lowered : Finset κ}
    (raised : Finset κ)
    (h : ∀ k, (lookup key k rows').elim 0 measure + (if k ∈ lowered then 1 else 0) ≤
      (lookup key k rows).elim 0 measure + if k ∈ raised then 1 else 0) :
    (rows'.map measure).sum + lowered.card ≤ (rows.map measure).sum + raised.card := by
  let keys := (rows.map key).toFinset ∪ (rows'.map key).toFinset ∪ (lowered ∪ raised)
  have hold : ∀ row ∈ rows, key row ∈ keys := fun row hrow ↦
    Finset.mem_union_left _ (Finset.mem_union_left _ (by simpa using ⟨row, hrow, rfl⟩))
  have hnew : ∀ row ∈ rows', key row ∈ keys := fun row hrow ↦
    Finset.mem_union_left _ (Finset.mem_union_right _ (by simpa using ⟨row, hrow, rfl⟩))
  rw [sum_map_add_card distinct' hnew
      (Finset.subset_union_left.trans Finset.subset_union_right),
    sum_map_add_card distinct hold (Finset.subset_union_right.trans Finset.subset_union_right)]
  exact Finset.sum_le_sum fun k _ ↦ h k

/-- Where the measure of no key has gone up, and that of some keys has gone down, the sum over the
rows has gone down by at least the number of these keys. -/
theorem sum_add_card_le (distinct : rows.Pairwise fun a b ↦ key a ≠ key b)
    (distinct' : rows'.Pairwise fun a b ↦ key a ≠ key b) {changed : Finset κ} {measure : α → ℕ}
    (h : ∀ k, (lookup key k rows').elim 0 measure + (if k ∈ changed then 1 else 0) ≤
      (lookup key k rows).elim 0 measure) :
    (rows'.map measure).sum + changed.card ≤ (rows.map measure).sum := by
  have hle := sum_add_card_le_add distinct distinct' ∅ fun k ↦ (h k).trans (Nat.le_add_right _ _)
  rwa [Finset.card_empty, add_zero] at hle

/-- Where the measure of some keys has gone up by one and that of some keys has gone down by one,
the sum over the rows has changed by the numbers of these keys. -/
theorem sum_add_card_eq (distinct : rows.Pairwise fun a b ↦ key a ≠ key b)
    (distinct' : rows'.Pairwise fun a b ↦ key a ≠ key b) {raised lowered : Finset κ}
    {measure : α → ℕ}
    (h : ∀ k, (lookup key k rows').elim 0 measure + (if k ∈ lowered then 1 else 0) =
      (lookup key k rows).elim 0 measure + if k ∈ raised then 1 else 0) :
    (rows'.map measure).sum + lowered.card = (rows.map measure).sum + raised.card :=
  (sum_add_card_le_add distinct distinct' raised fun k ↦ (h k).le).antisymm
    (sum_add_card_le_add distinct' distinct lowered fun k ↦ (h k).ge)

/-- A count is the sum of an indicator. -/
theorem countP_eq_sum (rows : List α) (p : α → Prop) [DecidablePred p] :
    (rows.countP fun row ↦ p row) = (rows.map fun row ↦ if p row then 1 else 0).sum := by
  induction rows with
  | nil => rfl
  | cons first rest ih =>
    rw [List.countP_cons, List.map_cons, List.sum_cons, ih, add_comm]
    simp

end Sum

section Groups

variable {rows : List α}

/-- `SELECT key, COUNT(*) … GROUP BY key`: a row for every key that occurs. -/
def groupCounts (key : α → κ) (rows : List α) : List (κ × ℕ) :=
  (rows.map key).dedup.map fun k ↦ (k, rows.countP fun row ↦ key row = k)

/-- A dictionary after an assignment for each row of a result. -/
def assign (counts : κ → ℕ) (groups : List (κ × ℕ)) : κ → ℕ :=
  groups.foldl (fun counts group ↦ Function.update counts group.1 group.2) counts

/-- When the number of a row depends on its key alone, the order of the assignments does not
matter. -/
theorem assign_apply {number : κ → ℕ} {groups : List (κ × ℕ)}
    (h : ∀ group ∈ groups, group.2 = number group.1) (counts : κ → ℕ) (k : κ) :
    assign counts groups k = if k ∈ groups.map Prod.fst then number k else counts k := by
  induction groups generalizing counts with
  | nil => rfl
  | cons group groups ih =>
    obtain ⟨hfirst, hrest⟩ := List.forall_mem_cons.mp h
    rw [assign, List.foldl_cons, ← assign, ih hrest]
    by_cases hk : k = group.1
    · subst hk
      simp [hfirst]
    · rw [Function.update_of_ne hk, List.map_cons]
      simp only [List.mem_cons, hk, false_or]

/-- The rows of a `GROUP BY`, in any order, make of the dictionary that is 0 everywhere the number
of rows for each key. -/
theorem assign_groupCounts {groups : List (κ × ℕ)} (hgroups : groups.Perm (groupCounts key rows))
    (k : κ) : assign (fun _ ↦ 0) groups k = rows.countP fun row ↦ key row = k := by
  let number : κ → ℕ := fun k ↦ rows.countP fun row ↦ key row = k
  have hnumber : ∀ group ∈ groups, group.2 = number group.1 := by
    intro group hgroup
    obtain ⟨k', -, rfl⟩ := List.mem_map.mp (hgroups.mem_iff.mp hgroup)
    rfl
  have hkeys : k ∈ groups.map Prod.fst ↔ k ∈ rows.map key := by
    rw [(hgroups.map Prod.fst).mem_iff]
    simp [groupCounts]
  rw [assign_apply hnumber]
  split_ifs with hk
  · rfl
  · refine (List.countP_eq_zero.mpr fun row hrow ↦ ?_).symm
    have hne : key row ≠ k := fun heq ↦ hk (hkeys.mpr (List.mem_map.mpr ⟨row, hrow, heq⟩))
    simpa using hne

end Groups

end Relay.Foundations.Table
