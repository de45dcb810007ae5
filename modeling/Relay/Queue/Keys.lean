import Relay.Queue.RowInvariants

/-!
# Idempotency keys

A key belongs to one row, from the insert that took effect on. `HasKey` says that a key is taken,
which it stays (`hasKey_of_run`); an insert takes effect exactly when its key is free
(`insert_none_iff`), so no key is inserted twice (`insertedKeys_nodup`); and the `SELECT` of
`enqueue` finds the row of a taken key (`selectKey_eq_some_iff`). So two enqueues return the same id
exactly when they were given the same key (`returned_pairwise`), and each row is the one its insert
described (`inserted_of_run`).
-/

set_option autoImplicit false
set_option relaxedAutoImplicit false

namespace Relay.Queue

open Foundations Store

variable {τ : Type*}

/-- A row carries the key. -/
def HasKey (jobs : Jobs τ) (key : String) : Prop :=
  ∃ row ∈ jobs.rows, row.idempotencyKey = some key

instance (jobs : Jobs τ) (key : String) : Decidable (HasKey jobs key) :=
  inferInstanceAs (Decidable (∃ row ∈ jobs.rows, _))

theorem sqlEq_some_right {α : Type*} {a : Option α} {b : α} : SqlEq a (some b) ↔ a = some b := by
  constructor
  · intro h
    exact h.2
  · rintro rfl
    exact ⟨rfl, rfl⟩

/-- The `SELECT` by key finds the row with the key. -/
theorem selectKey_eq_some_iff {jobs : Jobs τ} {key : String} {id : ℕ} :
    selectKey jobs (some key) = some id ↔
      ∃ row, jobs.row? id = some row ∧ row.idempotencyKey = some key := by
  unfold selectKey
  rw [Option.map_eq_some_iff]
  constructor
  · rintro ⟨row, hfind, rfl⟩
    exact ⟨row, Jobs.row?_of_mem (List.mem_of_find?_eq_some hfind),
      sqlEq_some_right.mp (by simpa using List.find?_some hfind)⟩
  · rintro ⟨row, hrow, hkey⟩
    have hmem := Jobs.mem_of_row? hrow
    cases hfind : jobs.rows.find? fun row ↦ SqlEq row.idempotencyKey (some key) with
    | none =>
      refine absurd (List.find?_eq_none.mp hfind row hmem) (not_not_intro ?_)
      simpa using sqlEq_some_right.mpr hkey
    | some found =>
      have hfound : found.idempotencyKey = some key :=
        sqlEq_some_right.mp (by simpa using List.find?_some hfind)
      have hsame : found = row := Jobs.eq_of_key (List.mem_of_find?_eq_some hfind) hmem
        (by rw [hfound, hkey]; exact sqlEq_some_right.mpr rfl)
      exact ⟨found, rfl, hsame ▸ Jobs.id_of_row? hrow⟩

theorem selectKey_isSome_of_hasKey {jobs : Jobs τ} {key : String} (h : HasKey jobs key) :
    (selectKey jobs (some key)).isSome := by
  obtain ⟨row, hrow, hkey⟩ := h
  have hfound : selectKey jobs (some key) = some row.id :=
    selectKey_eq_some_iff.mpr ⟨row, Jobs.row?_of_mem hrow, hkey⟩
  rw [hfound]
  rfl

section Insert

variable [Add τ] {jobs : Jobs τ} {args : EnqueueArgs τ} {id : ℕ}

/-- An insert is ignored exactly when its key is taken. -/
theorem insert_none_iff : (insert jobs args).2 = none ↔
    ∃ key, args.idempotencyKey = some key ∧ HasKey jobs key := by
  rcases insert_cases jobs args with ⟨⟨row, hrow, hkey⟩, hinsert⟩ | ⟨hfree, _, hinsert, -⟩
  · rw [hinsert]
    obtain ⟨key, hsome⟩ := Option.isSome_iff_exists.mp hkey.1
    exact iff_of_true rfl ⟨key, hkey.2 ▸ hsome, row, hrow, hsome⟩
  · rw [hinsert]
    refine iff_of_false nofun ?_
    rintro ⟨key, hkey, row, hrow, hrowKey⟩
    exact hfree row hrow (by rw [hrowKey, hkey]; exact sqlEq_some_right.mpr rfl)

/-- An insert that takes effect adds its row under a new id. -/
theorem insert_some (h : (insert jobs args).2 = some id) :
    jobs.sequence < id ∧ (insert jobs args).1.row? id = some (args.row id) ∧
      (∀ key, args.idempotencyKey = some key → ¬ HasKey jobs key) ∧
      (insert jobs args).1.rows = jobs.rows ++ [args.row id] := by
  rcases insert_cases jobs args with ⟨-, hinsert⟩ | ⟨hfree, jobs', hinsert, -, hrows, hrow⟩
  · rw [hinsert] at h
    cases h
  · rw [hinsert] at h ⊢
    obtain rfl := Option.some.inj h
    refine ⟨Nat.lt_succ_self _, (hrow _).trans (if_pos rfl), ?_, hrows⟩
    rintro key hkey ⟨row, hmem, hrowKey⟩
    exact hfree row hmem (by rw [hrowKey, hkey]; exact sqlEq_some_right.mpr rfl)

end Insert

/-! ### Keys over runs -/

/-- The key of an insert that took effect, if it has one. -/
def Event.insertedKey? : Event τ → Option String
  | ⟨.insert args, .inserted (some _)⟩ => args.idempotencyKey
  | _ => none

variable [Add τ] [LinearOrder τ] {jobs jobs' : Jobs τ} {e : Event τ} {es : List (Event τ)}

/-- A key that is taken stays so. -/
theorem hasKey_of_run (h : Run Step jobs es jobs') {key : String} (hkey : HasKey jobs key) :
    HasKey jobs' key := by
  obtain ⟨row, hrow, hrowKey⟩ := hkey
  obtain ⟨row', hrow', hticket⟩ := ticket_of_run h (Jobs.row?_of_mem hrow)
  refine ⟨row', Jobs.mem_of_row? hrow', ?_⟩
  rw [← hrowKey]
  exact congrArg Ticket.idempotencyKey hticket

/-- The id of a key stays the same. -/
theorem selectKey_of_run (h : Run Step jobs es jobs') {key : Option String} {id : ℕ}
    (hfound : selectKey jobs key = some id) : selectKey jobs' key = some id := by
  cases key with
  | none =>
    obtain ⟨row, hfind, -⟩ := Option.map_eq_some_iff.mp hfound
    have hmatch := List.find?_some hfind
    exact absurd (of_decide_eq_true hmatch) not_sqlEq_none_right
  | some key =>
    obtain ⟨row, hrow, hkey⟩ := selectKey_eq_some_iff.mp hfound
    obtain ⟨row', hrow', hticket⟩ := ticket_of_run h hrow
    exact selectKey_eq_some_iff.mpr
      ⟨row', hrow', (congrArg Ticket.idempotencyKey hticket).trans hkey⟩

/-- A key is inserted when it was free, and is taken from then on. -/
theorem Step.insertedKey (h : Step jobs e jobs') {key : String} (hkey : e.insertedKey? = some key) :
    ¬ HasKey jobs key ∧ HasKey jobs' key := by
  unfold Event.insertedKey? at hkey
  split at hkey
  · rename_i args id
    obtain ⟨rfl, hreply⟩ := Prod.mk.inj h
    obtain ⟨-, hrow, hfree, -⟩ := insert_some (Reply.inserted.inj hreply)
    exact ⟨hfree key hkey, args.row id, Jobs.mem_of_row? hrow, hkey⟩
  · cases hkey

/-- A row of the table after a step was there before with the same fixed columns, or is the row the
step inserts. -/
theorem Step.row_cases (h : Step jobs e jobs') {row' : JobRow τ} (hrow' : row' ∈ jobs'.rows) :
    (∃ row, jobs.row? row'.id = some row ∧ row'.ticket = row.ticket) ∨
      ∃ args, e = ⟨.insert args, .inserted (some row'.id)⟩ ∧ row' = args.row row'.id := by
  have hrowStep := h.rowStep row'.id
  rw [Jobs.row?_of_mem hrow'] at hrowStep
  cases hrow : jobs.row? row'.id with
  | none =>
    rw [hrow] at hrowStep
    generalize hnew : some row' = new at hrowStep
    cases hrowStep with
    | onInsert args => exact .inr ⟨args, rfl, Option.some.inj hnew⟩
    | untouched _ _ => cases hnew
  | some row =>
    obtain ⟨_, hsame, hticket⟩ := ticket_of_run (.single h) hrow
    rw [Jobs.row?_of_mem hrow'] at hsame
    obtain rfl := Option.some.inj hsame
    exact .inl ⟨row, rfl, hticket⟩

/-- A key is in the table after a step if it was before, or if the step inserts it. -/
theorem Step.hasKey_cases (h : Step jobs e jobs') {key : String} (hkey : HasKey jobs' key) :
    HasKey jobs key ∨ ∃ args, e.statement = .insert args ∧ args.idempotencyKey = some key := by
  obtain ⟨row', hrow', hrowKey⟩ := hkey
  rcases h.row_cases hrow' with ⟨row, hrow, hticket⟩ | ⟨args, rfl, hnew⟩
  · refine .inl ⟨row, Jobs.mem_of_row? hrow, ?_⟩
    rw [← hrowKey]
    exact (congrArg Ticket.idempotencyKey hticket).symm
  · rw [hnew] at hrowKey
    exact .inr ⟨args, rfl, hrowKey⟩

/-- An `enqueue` whose statements nothing comes between never raises: it returns the id of its new
row, or that of the row its `SELECT` finds. -/
theorem enqueue_eq (jobs : Jobs τ) (args : EnqueueArgs τ) :
    ∃ id, enqueue jobs args = ((insert jobs args).1, .ok id) ∧
      ((insert jobs args).2 = some id ∨ ((insert jobs args).2 = none ∧
        selectKey (insert jobs args).1 args.idempotencyKey = some id)) := by
  have hstep : Step jobs ⟨.insert args, .inserted (insert jobs args).2⟩ (insert jobs args).1 := rfl
  cases hinsert : (insert jobs args).2 with
  | some id =>
    refine ⟨id, ?_, .inl rfl⟩
    rw [enqueue, show insert jobs args = ((insert jobs args).1, some id) from Prod.ext rfl hinsert]
  | none =>
    obtain ⟨key, hkey, htaken⟩ := insert_none_iff.mp hinsert
    have hkept : HasKey (insert jobs args).1 key := hasKey_of_run (.single hstep) htaken
    obtain ⟨id, hfound⟩ := Option.isSome_iff_exists.mp (selectKey_isSome_of_hasKey hkept)
    rw [← hkey] at hfound
    refine ⟨id, ?_, .inr ⟨rfl, hfound⟩⟩
    rw [enqueue, show insert jobs args = ((insert jobs args).1, none) from Prod.ext rfl hinsert]
    simp only [hfound]

/-- No key is ever inserted twice. -/
theorem insertedKeys_nodup (h : Run Step jobs es jobs') :
    (es.filterMap Event.insertedKey?).Nodup ∧
      ∀ key ∈ es.filterMap Event.insertedKey?, HasKey jobs' key := by
  refine h.history (motive := fun es jobs' ↦ (es.filterMap Event.insertedKey?).Nodup ∧
      ∀ key ∈ es.filterMap Event.insertedKey?, HasKey jobs' key) ?_ ?_
  · simp
  · rintro es jobs e jobs' - ⟨hnodup, htaken⟩ hstep
    have hkept : ∀ key ∈ es.filterMap Event.insertedKey?, HasKey jobs' key :=
      fun key hkey ↦ hasKey_of_run (.single hstep) (htaken key hkey)
    cases hlast : e.insertedKey? with
    | none =>
      simp only [List.filterMap_append, List.filterMap_cons_none hlast, List.filterMap_nil,
        List.append_nil]
      exact ⟨hnodup, hkept⟩
    | some key =>
      obtain ⟨hfree, hnew⟩ := hstep.insertedKey hlast
      simp only [List.filterMap_append, List.filterMap_cons_some hlast, List.filterMap_nil]
      refine ⟨List.nodup_append.mpr ⟨hnodup, List.nodup_singleton key, ?_⟩, ?_⟩
      · intro other hother last hlast'
        rw [List.mem_singleton.mp hlast']
        rintro rfl
        exact hfree (htaken _ hother)
      · intro other hother
        rcases List.mem_append.mp hother with hother | hother
        · exact hkept other hother
        · exact List.mem_singleton.mp hother ▸ hnew

/-! ### What enqueues return -/

/-- What an `enqueue` was given as key and the id it returned, at the statement it returned with. -/
def Event.returned? : Event τ → Option (Option String × ℕ)
  | ⟨.insert args, .inserted (some id)⟩ => some (args.idempotencyKey, id)
  | ⟨.selectKey key, .selected (some id)⟩ => some (key, id)
  | _ => none

/-- An id is returned for a row that carries the key. -/
theorem Step.returned (h : Step jobs e jobs') {key : Option String} {id : ℕ}
    (hreturned : e.returned? = some (key, id)) :
    (∃ row, jobs'.row? id = some row ∧ row.idempotencyKey = key) ∧
      ((jobs.sequence < id ∧ ∀ k, key = some k → ¬ HasKey jobs k) ∨
        (key.isSome ∧ ∃ row, jobs.row? id = some row ∧ row.idempotencyKey = key)) := by
  unfold Event.returned? at hreturned
  split at hreturned
  · rename_i args _
    obtain ⟨rfl, rfl⟩ := Prod.mk.inj (Option.some.inj hreturned)
    obtain ⟨rfl, hreply⟩ := Prod.mk.inj h
    obtain ⟨hnew, hrow, hfree, -⟩ := insert_some (Reply.inserted.inj hreply)
    exact ⟨⟨_, hrow, rfl⟩, .inl ⟨hnew, hfree⟩⟩
  · rename_i key' id'
    obtain ⟨rfl, rfl⟩ := Prod.mk.inj (Option.some.inj hreturned)
    obtain ⟨rfl, hreply⟩ := Prod.mk.inj h
    have hselect := Reply.selected.inj hreply
    cases key' with
    | none =>
      obtain ⟨row, hfind, -⟩ := Option.map_eq_some_iff.mp hselect
      have hmatch := List.find?_some hfind
      exact absurd (of_decide_eq_true hmatch) not_sqlEq_none_right
    | some key =>
      have hrow := selectKey_eq_some_iff.mp hselect
      exact ⟨hrow, .inr ⟨rfl, hrow⟩⟩
  · cases hreturned

/-- Two enqueues return the same id exactly when they were given the same key. -/
theorem returned_pairwise (h : Run Step jobs es jobs') :
    (es.filterMap Event.returned?).Pairwise
        (fun a b ↦ a.2 = b.2 ↔ a.1 = b.1 ∧ a.1.isSome) ∧
      ∀ a ∈ es.filterMap Event.returned?,
        ∃ row, jobs'.row? a.2 = some row ∧ row.idempotencyKey = a.1 := by
  refine h.history (motive := fun es jobs' ↦ (es.filterMap Event.returned?).Pairwise
        (fun a b ↦ a.2 = b.2 ↔ a.1 = b.1 ∧ a.1.isSome) ∧
      ∀ a ∈ es.filterMap Event.returned?,
        ∃ row, jobs'.row? a.2 = some row ∧ row.idempotencyKey = a.1) ?_ ?_
  · simp
  · rintro es jobs e jobs' - ⟨hpairwise, hrows⟩ hstep
    have hkept : ∀ a ∈ es.filterMap Event.returned?,
        ∃ row, jobs'.row? a.2 = some row ∧ row.idempotencyKey = a.1 := by
      intro a ha
      obtain ⟨row, hrow, hkey⟩ := hrows a ha
      obtain ⟨row', hrow', hticket⟩ := ticket_of_run (.single hstep) hrow
      exact ⟨row', hrow', (congrArg Ticket.idempotencyKey hticket).trans hkey⟩
    cases hlast : e.returned? with
    | none =>
      simp only [List.filterMap_append, List.filterMap_cons_none hlast, List.filterMap_nil,
        List.append_nil]
      exact ⟨hpairwise, hkept⟩
    | some last =>
      obtain ⟨hnew, hcases⟩ := hstep.returned hlast
      simp only [List.filterMap_append, List.filterMap_cons_some hlast, List.filterMap_nil]
      refine ⟨List.pairwise_append.mpr ⟨hpairwise, List.pairwise_singleton _ _, ?_⟩, ?_⟩
      · intro a ha b hb
        rw [List.mem_singleton.mp hb]
        obtain ⟨row, hrow, hkey⟩ := hrows a ha
        rcases hcases with ⟨habove, hfree⟩ | ⟨hsome, found, hfound, hfoundKey⟩
        · -- a new row: its id and its key are on no row so far
          refine iff_of_false (fun hid ↦ ?_) ?_
          · rw [Jobs.row?_of_sequence_lt (hid ▸ habove)] at hrow
            cases hrow
          · rintro ⟨hsame, hsome⟩
            obtain ⟨k, hk⟩ := Option.isSome_iff_exists.mp hsome
            exact hfree k (hsame ▸ hk) ⟨row, Jobs.mem_of_row? hrow, hkey.trans hk⟩
        · -- the row of a key: the id and the key determine each other
          constructor
          · intro hid
            rw [hid, hfound] at hrow
            have hsame : a.1 = last.1 := by
              rw [← hkey, ← Option.some.inj hrow, hfoundKey]
            exact ⟨hsame, hsame ▸ hsome⟩
          · rintro ⟨hsame, -⟩
            have hrows : row = found := by
              refine Jobs.eq_of_key (Jobs.mem_of_row? hrow) (Jobs.mem_of_row? hfound) ?_
              rw [hkey, hfoundKey, hsame]
              exact ⟨hsome, rfl⟩
            rw [← Jobs.id_of_row? hrow, ← Jobs.id_of_row? hfound, hrows]
      · intro a ha
        rcases List.mem_append.mp ha with ha | ha
        · exact hkept a ha
        · rw [List.mem_singleton.mp ha]
          exact hnew

/-- Every row is the one its insert described. -/
theorem inserted_of_run (h : Run Step Jobs.empty es jobs) : ∀ row ∈ jobs.rows,
    ∃ before args after, es = before ++ ⟨.insert args, .inserted (some row.id)⟩ :: after ∧
      row.ticket = (args.row row.id).ticket := by
  refine h.history (motive := fun es jobs ↦ ∀ row ∈ jobs.rows,
    ∃ before args after, es = before ++ ⟨.insert args, .inserted (some row.id)⟩ :: after ∧
      row.ticket = (args.row row.id).ticket) ?_ ?_
  · exact fun _ h ↦ nomatch h
  · intro es jobs e jobs' _ ih hstep row' hrow'
    rcases hstep.row_cases hrow' with ⟨row, hrow, hticket⟩ | ⟨args, rfl, hnew⟩
    · have hid : row.id = row'.id := Jobs.id_of_row? hrow
      obtain ⟨before, args, after, rfl, hargs⟩ := ih row (Jobs.mem_of_row? hrow)
      refine ⟨before, args, after ++ [e], ?_, ?_⟩
      · rw [← hid]
        simp
      · rw [hticket, hargs, hid]
    · exact ⟨es, args, [], rfl, congrArg JobRow.ticket hnew⟩

end Relay.Queue
