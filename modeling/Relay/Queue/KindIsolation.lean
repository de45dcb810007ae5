import Relay.Queue.Keys
import Relay.Queue.Lifecycle

/-!
# Kinds on one database

Jobs of several kinds often share a database, each kind with its own producers and workers. They do
not get in each other's way: when no claim names kinds on both sides and no key is used on both
sides, what happens to the jobs of some kinds is a run of the queue on these jobs alone
(`kinds_isolated`), with the answers their own producers and workers were given. All that is left
of the other side are gaps in the ids.
-/

set_option autoImplicit false
set_option relaxedAutoImplicit false

namespace Relay.Queue

open Foundations Store

variable {τ : Type*} (ours : String → Prop) [DecidablePred ours]

/-- The jobs of our kinds. -/
def ownJobs (jobs : Jobs τ) : Jobs τ := jobs.part fun ticket ↦ ours ticket.kind

/-- The id that an entry of the history gives to a job of our kinds. -/
def Event.ownId? : Event τ → Option ℕ
  | ⟨.insert args, .inserted (some id)⟩ => if ours args.kind then some id else none
  | _ => none

/-- The ids of the jobs of our kinds. -/
def ownIds (es : List (Event τ)) : List ℕ := es.filterMap (Event.ownId? ours)

/-- An entry of the history as seen from our kinds, where `own` are the ids of their jobs: our own
inserts, claims and settles with their answers, and of maintenance what it does to our jobs. -/
def Event.seen (own : ℕ → Prop) [DecidablePred own] : Event τ → Option (Event τ)
  | ⟨.insert args, reply⟩ => if ours args.kind then some ⟨.insert args, reply⟩ else none
  | ⟨.selectKey key, .selected id⟩ =>
    if ∀ j ∈ id, own j then some ⟨.selectKey key, .selected id⟩ else none
  | ⟨.claim workerId kinds leaseS now, reply⟩ =>
    if ∀ ks ∈ kinds, ∀ kind ∈ ks, ours kind then some ⟨.claim workerId kinds leaseS now, reply⟩
    else none
  | ⟨.settle kind jobId workerId now, reply⟩ =>
    if own jobId then some ⟨.settle kind jobId workerId now, reply⟩ else none
  | ⟨.releaseExpired now, .touched ids⟩ =>
    some ⟨.releaseExpired now, .touched (ids.filter fun id ↦ own id)⟩
  | ⟨.requeueDead jobId now, .touched ids⟩ =>
    some ⟨.requeueDead jobId now, .touched (ids.filter fun id ↦ own id)⟩
  | _ => none

/-- A step of a queue whose ids may have gaps. -/
def GapStep [Add τ] [LinearOrder τ] (jobs : Jobs τ) (e : Option (Event τ)) (jobs' : Jobs τ) :
    Prop :=
  match e with
  | some e => Step jobs e jobs'
  | none => jobs'.rows = jobs.rows ∧ jobs.sequence ≤ jobs'.sequence

/-- The kinds that a claim names. -/
def Event.claimKinds? : Event τ → Option (Option (List String))
  | ⟨.claim _ kinds _ _, _⟩ => some kinds
  | _ => none

/-- The arguments of an insert. -/
def Event.insertArgs? : Event τ → Option (EnqueueArgs τ)
  | ⟨.insert args, _⟩ => some args
  | _ => none

/-- The kinds are used apart: each claim names kinds on one side, and no key is used on both. -/
structure Apart (es : List (Event τ)) : Prop where
  claims : ∀ e ∈ es, ∀ kinds ∈ e.claimKinds?,
    ∃ ks ∈ kinds, (∀ kind ∈ ks, ours kind) ∨ ∀ kind ∈ ks, ¬ ours kind
  keys : ∀ a ∈ es, ∀ b ∈ es, ∀ args ∈ a.insertArgs?, ∀ args' ∈ b.insertArgs?,
    SqlEq args.idempotencyKey args'.idempotencyKey → (ours args.kind ↔ ours args'.kind)

/-! ### Updates seen from one side -/

section Update

variable {ours} {jobs : Jobs τ} {p : JobRow τ → Prop} [DecidablePred p]
  {set : JobRow τ → JobRow τ}

theorem mem_ownJobs {row : JobRow τ} :
    row ∈ (ownJobs ours jobs).rows ↔ row ∈ jobs.rows ∧ ours row.kind := Jobs.mem_rows_part

theorem ownJobs_update (keeps : ∀ row, (set row).ticket = row.ticket) :
    ownJobs ours (jobs.update p set keeps) = (ownJobs ours jobs).update p set keeps := by
  refine Jobs.ext (Table.filter_updateWhere_of_iff (fun row ↦ ?_) jobs.rows) rfl
  rw [keeps]

/-- An update that matches no job of our kinds. -/
theorem ownJobs_update_of_not (keeps : ∀ row, (set row).ticket = row.ticket)
    (h : ∀ row ∈ jobs.rows, p row → ¬ ours row.kind) :
    ownJobs ours (jobs.update p set keeps) = ownJobs ours jobs := by
  rw [ownJobs_update]
  refine Jobs.ext (Table.updateWhere_of_forall_not fun row hrow hp ↦ ?_) rfl
  obtain ⟨hmem, hours⟩ := mem_ownJobs.mp hrow
  exact h row hmem hp hours

/-- An update that only matches jobs of our kinds. -/
theorem touched_ownJobs (h : ∀ row ∈ jobs.rows, p row → ours row.kind) :
    Table.touched p set (ownJobs ours jobs).rows = Table.touched p set jobs.rows := by
  refine congrArg (List.map set) ?_
  rw [ownJobs, Jobs.part, List.filter_filter]
  refine List.filter_congr fun row hrow ↦ ?_
  by_cases hp : p row
  · simp [hp, JobRow.ticket, h row hrow hp]
  · simp [hp]

theorem touchedIds_ownJobs {own : ℕ → Prop} [DecidablePred own]
    (hids : ∀ row ∈ jobs.rows, ours row.kind ↔ own row.id)
    (keeps : ∀ row, (set row).ticket = row.ticket) :
    (Table.touched p set (ownJobs ours jobs).rows).map JobRow.id =
      ((Table.touched p set jobs.rows).map JobRow.id).filter fun id ↦ own id := by
  have hid : ∀ row, (set row).id = row.id := fun row ↦ congrArg Ticket.id (keeps row)
  rw [Table.touched, Table.touched, List.map_map, List.map_map, List.filter_map, ownJobs, Jobs.part,
    List.filter_filter, List.filter_filter]
  refine congrArg _ (List.filter_congr fun row hrow ↦ ?_)
  simp [JobRow.ticket, hid, hids row hrow, Bool.and_comm]

end Update

/-! ### Statements seen from one side -/

section Insert

variable {ours} [Add τ] {jobs : Jobs τ}

theorem insert_ownJobs {args : EnqueueArgs τ} (hours : ours args.kind)
    (hkeys : ∀ row ∈ jobs.rows, SqlEq row.idempotencyKey args.idempotencyKey → ours row.kind) :
    insert (ownJobs ours jobs) args =
      (ownJobs ours (insert jobs args).1, (insert jobs args).2) := by
  rcases insert_cases (ownJobs ours jobs) args with
    ⟨⟨row, hrow, hkey⟩, hinsert⟩ | ⟨hfree, new, hinsert, hcount, hrows, -⟩
  · rcases insert_cases jobs args with ⟨-, hinsert'⟩ | ⟨hfree, -⟩
    · rw [hinsert, hinsert']
      rfl
    · exact absurd hkey (hfree row (mem_ownJobs.mp hrow).1)
  · rcases insert_cases jobs args with
      ⟨⟨row, hrow, hkey⟩, -⟩ | ⟨-, new', hinsert', hcount', hrows', -⟩
    · exact absurd hkey (hfree row (mem_ownJobs.mpr ⟨hrow, hkeys row hrow hkey⟩))
    · rw [hinsert, hinsert']
      refine Prod.ext (Jobs.ext ?_ (hcount.trans hcount'.symm)) rfl
      change new.rows = new'.rows.filter fun row ↦ ours row.ticket.kind
      rw [hrows, hrows', List.filter_append]
      refine congrArg _ ?_
      simp [JobRow.ticket, EnqueueArgs.row, hours, ownJobs, Jobs.part]

theorem ownJobs_insert_of_not {args : EnqueueArgs τ} (hours : ¬ ours args.kind) :
    (ownJobs ours (insert jobs args).1).rows = (ownJobs ours jobs).rows ∧
      (ownJobs ours jobs).sequence ≤ (ownJobs ours (insert jobs args).1).sequence := by
  rcases insert_cases jobs args with ⟨-, hinsert⟩ | ⟨-, new, hinsert, hcount, hrows, -⟩
  · rw [hinsert]
    exact ⟨rfl, Nat.le_succ _⟩
  · rw [hinsert]
    refine ⟨?_, (Nat.le_succ jobs.sequence).trans_eq hcount.symm⟩
    change new.rows.filter (fun row ↦ ours row.ticket.kind) = _
    rw [hrows, List.filter_append]
    simp [JobRow.ticket, EnqueueArgs.row, hours, ownJobs, Jobs.part]

end Insert

section Machine

variable {ours} [Add τ] [LinearOrder τ] {own : ℕ → Prop} {jobs jobs' : Jobs τ} {e : Event τ}

omit [Add τ] [LinearOrder τ] in
theorem selectKey_ownJobs {key : Option String}
    (hids : ∀ row ∈ jobs.rows, ours row.kind ↔ own row.id)
    (hown : ∀ j ∈ selectKey jobs key, own j) :
    selectKey (ownJobs ours jobs) key = selectKey jobs key := by
  cases key with
  | none =>
    have hnone : ∀ rows : List (JobRow τ),
        rows.find? (fun row ↦ SqlEq row.idempotencyKey none) = none :=
      fun rows ↦ List.find?_eq_none.mpr (by simp)
    rw [selectKey, selectKey, hnone, hnone]
  | some key =>
    cases hfound : selectKey jobs (some key) with
    | some id =>
      obtain ⟨row, hrow, hkey⟩ := selectKey_eq_some_iff.mp hfound
      obtain rfl := Jobs.id_of_row? hrow
      have hmem := Jobs.mem_of_row? hrow
      have hrow' := mem_ownJobs.mpr ⟨hmem, (hids row hmem).mpr (hown _ hfound)⟩
      exact selectKey_eq_some_iff.mpr ⟨row, Jobs.row?_of_mem hrow', hkey⟩
    | none =>
      cases hfound' : selectKey (ownJobs ours jobs) (some key) with
      | none => rfl
      | some id =>
        obtain ⟨row, hrow, hkey⟩ := selectKey_eq_some_iff.mp hfound'
        have hmem := (mem_ownJobs.mp (Jobs.mem_of_row? hrow)).1
        rw [selectKey_eq_some_iff.mpr ⟨row, Jobs.row?_of_mem hmem, hkey⟩] at hfound
        cases hfound

/-- A claim of our kinds takes the job it would take from our jobs. -/
theorem claim_ownJobs (workerId : Option String) {kinds : Option (List String)} (leaseS now : τ)
    (hkinds : ∃ ks ∈ kinds, ∀ kind ∈ ks, ours kind) :
    claim (ownJobs ours jobs) workerId kinds leaseS now =
      (ownJobs ours (claim jobs workerId kinds leaseS now).1,
        (claim jobs workerId kinds leaseS now).2) := by
  obtain ⟨ks, hks, hours⟩ := hkinds
  have hselect : Table.selectOrdered ClaimOrder (Claimable kinds now) (ownJobs ours jobs).rows =
      Table.selectOrdered ClaimOrder (Claimable kinds now) jobs.rows := by
    unfold Table.selectOrdered
    rw [ownJobs, Jobs.part, List.filter_filter]
    refine congrArg _ (List.filter_congr fun row _ ↦ ?_)
    by_cases hrow : Claimable kinds now row
    · simp [hrow, JobRow.ticket, hours row.kind (hrow.2 ks hks)]
    · simp [hrow]
  rcases claim_cases jobs workerId kinds leaseS now with
    ⟨hnone, hclaim⟩ | ⟨row, rest, hsome, hclaim⟩
  · rcases claim_cases (ownJobs ours jobs) workerId kinds leaseS now with
      ⟨-, hclaim'⟩ | ⟨row', rest', hsome', -⟩
    · rw [hclaim, hclaim']
    · rw [hselect, hnone] at hsome'
      cases hsome'
  · rcases claim_cases (ownJobs ours jobs) workerId kinds leaseS now with
      ⟨hnone', -⟩ | ⟨row', rest', hsome', hclaim'⟩
    · rw [hselect, hsome] at hnone'
      cases hnone'
    · rw [hselect, hsome] at hsome'
      obtain ⟨rfl, -⟩ := List.cons.inj hsome'
      rw [hclaim, hclaim', ownJobs_update]

/-- A claim of other kinds takes none of our jobs. -/
theorem ownJobs_claim_of_not (workerId : Option String) {kinds : Option (List String)}
    (leaseS now : τ) (hkinds : ∃ ks ∈ kinds, ∀ kind ∈ ks, ¬ ours kind) :
    ownJobs ours (claim jobs workerId kinds leaseS now).1 = ownJobs ours jobs := by
  obtain ⟨ks, hks, hothers⟩ := hkinds
  rcases claim_cases jobs workerId kinds leaseS now with ⟨-, hclaim⟩ | ⟨row, rest, hsome, hclaim⟩
  · rw [hclaim]
  · rw [hclaim]
    obtain ⟨hrow, hclaimable⟩ := Table.mem_selectOrdered.mp (hsome ▸ List.mem_cons_self ..)
    refine ownJobs_update_of_not (ticket_claimed workerId leaseS now) fun other hother hid ↦ ?_
    rw [Jobs.eq_of_id hother hrow hid]
    exact hothers row.kind (hclaimable.2 ks hks)

theorem settle_ownJobs (hids : ∀ row ∈ jobs.rows, ours row.kind ↔ own row.id)
    (kind : SettleKind τ) {jobId : ℕ} (hown : own jobId) (workerId : Option String) (now : τ) :
    settle (ownJobs ours jobs) kind jobId workerId now =
      (ownJobs ours (settle jobs kind jobId workerId now).1,
        (settle jobs kind jobId workerId now).2) := by
  have htouched : Table.touched (HoldsLease jobId workerId now) (kind.set now)
      (ownJobs ours jobs).rows =
        Table.touched (HoldsLease jobId workerId now) (kind.set now) jobs.rows :=
    touched_ownJobs fun row hrow hguard ↦ (hids row hrow).mpr (hguard.1 ▸ hown)
  rw [settle, settle, htouched, ownJobs_update]

theorem ownJobs_settle_of_not (hids : ∀ row ∈ jobs.rows, ours row.kind ↔ own row.id)
    (kind : SettleKind τ) {jobId : ℕ} (hown : ¬ own jobId) (workerId : Option String) (now : τ) :
    ownJobs ours (settle jobs kind jobId workerId now).1 = ownJobs ours jobs :=
  ownJobs_update_of_not (kind.ticket_set now) fun row hrow hguard hours ↦
    hown (hguard.1 ▸ (hids row hrow).mp hours)

theorem gapStep_of_eq (h : jobs' = jobs) : GapStep jobs none jobs' :=
  ⟨congrArg Jobs.rows h, (congrArg Jobs.sequence h).ge⟩

/-- Every statement is one on our jobs, with the answer it gives our side, or leaves them alone. -/
theorem Step.seen [DecidablePred own] (h : Step jobs e jobs')
    (hids : ∀ row ∈ jobs.rows, ours row.kind ↔ own row.id)
    (hkeys : ∀ args ∈ e.insertArgs?, ∀ row ∈ jobs.rows,
      SqlEq row.idempotencyKey args.idempotencyKey → (ours row.kind ↔ ours args.kind))
    (hclaims : ∀ kinds ∈ e.claimKinds?,
      ∃ ks ∈ kinds, (∀ kind ∈ ks, ours kind) ∨ ∀ kind ∈ ks, ¬ ours kind) :
    GapStep (ownJobs ours jobs) (e.seen ours own) (ownJobs ours jobs') := by
  obtain ⟨statement, reply⟩ := e
  cases statement with
  | insert args =>
    obtain ⟨rfl, rfl⟩ := Prod.mk.inj h
    by_cases hours : ours args.kind
    · rw [Event.seen, if_pos hours]
      have hown := insert_ownJobs hours fun row hrow hkey ↦ (hkeys args rfl row hrow hkey).mpr hours
      exact congrArg (Prod.map id Reply.inserted) hown
    · rw [Event.seen, if_neg hours]
      exact ownJobs_insert_of_not hours
  | selectKey key =>
    obtain ⟨rfl, rfl⟩ := Prod.mk.inj h
    change GapStep _ (if ∀ j ∈ selectKey jobs key, own j then _ else none) _
    split_ifs with hown
    · exact congrArg (fun id ↦ (ownJobs ours jobs, Reply.selected id)) (selectKey_ownJobs hids hown)
    · exact gapStep_of_eq rfl
  | claim workerId kinds leaseS now =>
    obtain ⟨rfl, rfl⟩ := Prod.mk.inj h
    obtain ⟨ks, hks, hside⟩ := hclaims kinds rfl
    rw [Event.seen]
    split_ifs with hours
    · exact congrArg (Prod.map id Reply.claimed)
        (claim_ownJobs workerId leaseS now ⟨ks, hks, hours ks hks⟩)
    · rcases hside with hall | hnone
      · refine absurd (fun ks' hks' ↦ ?_) hours
        obtain rfl := Option.mem_unique hks hks'
        exact hall
      · exact gapStep_of_eq (ownJobs_claim_of_not workerId leaseS now ⟨ks, hks, hnone⟩)
  | settle kind jobId workerId now =>
    obtain ⟨rfl, rfl⟩ := Prod.mk.inj h
    rw [Event.seen]
    split_ifs with hown
    · exact congrArg (Prod.map id Reply.settled) (settle_ownJobs hids kind hown workerId now)
    · exact gapStep_of_eq (ownJobs_settle_of_not hids kind hown workerId now)
  | releaseExpired now =>
    obtain ⟨rfl, rfl⟩ := Prod.mk.inj h
    exact Prod.ext (ownJobs_update (ticket_released now)).symm
      (congrArg Reply.touched (touchedIds_ownJobs hids (ticket_released now)))
  | requeueDead jobId now =>
    obtain ⟨rfl, rfl⟩ := Prod.mk.inj h
    exact Prod.ext (ownJobs_update (ticket_requeued now)).symm
      (congrArg Reply.touched (touchedIds_ownJobs hids (ticket_requeued now)))

/-! ### Runs seen from one side -/

variable {es : List (Event τ)}

/-- The row of an insert stays in the table, with the columns the insert fixed. -/
theorem ticket_of_insert (h : Run Step jobs es jobs') {args : EnqueueArgs τ} {j : ℕ}
    (hmem : ⟨.insert args, .inserted (some j)⟩ ∈ es) :
    ∃ row, jobs'.row? j = some row ∧ row.ticket = (args.row j).ticket := by
  obtain ⟨before, after, rfl⟩ := List.append_of_mem hmem
  obtain ⟨u, u', -, hstep, hafter⟩ := h.at_label
  obtain ⟨rfl, hreply⟩ := Prod.mk.inj hstep
  obtain ⟨-, hrow, -⟩ := insert_some (Reply.inserted.inj hreply)
  exact ticket_of_run hafter hrow

omit [Add τ] [LinearOrder τ] in
theorem mem_ownIds {j : ℕ} : j ∈ ownIds ours es ↔
    ∃ args, ⟨.insert args, .inserted (some j)⟩ ∈ es ∧ ours args.kind := by
  rw [ownIds, List.mem_filterMap]
  constructor
  · rintro ⟨e, he, hown⟩
    unfold Event.ownId? at hown
    split at hown
    · rename_i args id
      rw [Option.ite_none_right_eq_some] at hown
      obtain ⟨hours, hid⟩ := hown
      obtain rfl := Option.some.inj hid
      exact ⟨args, he, hours⟩
    · cases hown
  · rintro ⟨args, he, hours⟩
    exact ⟨_, he, if_pos hours⟩

/-- At any point of a history, the jobs of our kinds are those with ids that an insert of them
returns. -/
theorem mem_ownIds_of_cut {before after : List (Event τ)}
    (h : Run Step Jobs.empty (before ++ after) jobs') (hbefore : Run Step Jobs.empty before jobs)
    (hafter : Run Step jobs after jobs') {row : JobRow τ} (hrow : row ∈ jobs.rows) :
    ours row.kind ↔ row.id ∈ ownIds ours (before ++ after) := by
  obtain ⟨first, args, last, hcut, hticket⟩ := inserted_of_run hbefore row hrow
  have hkind : row.kind = args.kind := congrArg Ticket.kind hticket
  rw [mem_ownIds]
  constructor
  · intro hours
    exact ⟨args, List.mem_append_left _ (hcut ▸ by simp), hkind ▸ hours⟩
  · rintro ⟨args', hmem, hours⟩
    obtain ⟨final, hfinal, hticket'⟩ := ticket_of_insert h hmem
    obtain ⟨final', hfinal', hkept⟩ := ticket_of_run hafter (Jobs.row?_of_mem hrow)
    obtain rfl := Option.some.inj (hfinal.symm.trans hfinal')
    have hsame : row.kind = args'.kind := congrArg Ticket.kind (hkept.symm.trans hticket')
    exact hsame ▸ hours

/-- Kinds do not get in each other's way. Take any history from an empty database in which no claim
names kinds both of ours and not of ours, and no key is used for both. What happens to the jobs of
our kinds is a run of the queue on these jobs alone, from an empty database: of the same inserts,
claims and settles of ours, with the same answers, and of the same maintenance, as far as it touches
our jobs. Whatever goes on with the other kinds only shows in gaps in the ids. -/
theorem kinds_isolated (h : Run Step Jobs.empty es jobs) (hapart : Apart ours es) :
    Run GapStep Jobs.empty (es.map (Event.seen ours fun j ↦ j ∈ ownIds ours es))
      (ownJobs ours jobs) := by
  have hseen : Run (fun t e t' ↦ GapStep (ownJobs ours t)
      (e.seen ours fun j ↦ j ∈ ownIds ours es) (ownJobs ours t')) Jobs.empty es jobs := by
    refine h.mono_of_cuts fun before e after t t' hcut hbefore hstep hafter ↦ ?_
    have he : e ∈ es := hcut ▸ by simp
    refine hstep.seen (fun row hrow ↦ ?_) (fun args hargs row hrow hkey ↦ ?_) (hapart.claims e he)
    · subst hcut
      exact mem_ownIds_of_cut h hbefore (.cons hstep hafter) hrow
    · obtain ⟨first, args', last, rfl, hticket⟩ := inserted_of_run hbefore row hrow
      have hkind : row.kind = args'.kind := congrArg Ticket.kind hticket
      have hkey' : row.idempotencyKey = args'.idempotencyKey :=
        congrArg Ticket.idempotencyKey hticket
      have hentry : ⟨.insert args', .inserted (some row.id)⟩ ∈ es := by
        rw [hcut]
        simp
      rw [hkind]
      rw [hkey'] at hkey
      exact hapart.keys _ hentry e he args' rfl args hargs hkey
  have hproject := hseen.project (ownJobs ours)
    (fun e ↦ some (e.seen ours fun j ↦ j ∈ ownIds ours es)) (fun _ _ _ _ hnone ↦ by cases hnone)
    (fun _ _ _ _ hstep hsome ↦ Option.some.inj hsome ▸ hstep)
  rw [List.filterMap_eq_map'] at hproject
  exact hproject

end Machine

/-- An email that is inserted between two reports, and two workers that each handle one kind. -/
def emailAndReports : List (Statement ℕ) :=
  [.insert ⟨"report", "null", 9, 5, 0, some "daily", 0⟩,
    .insert ⟨"email", "null", 0, 5, 0, some "welcome", 0⟩,
    .insert ⟨"report", "null", 9, 5, 0, none, 0⟩,
    .claim (some "w1") (some ["email"]) 60 1, .claim (some "w2") (some ["report"]) 60 1,
    .settle .ack 1 (some "w2") 2, .releaseExpired 61, .claim (some "w1") (some ["email"]) 60 62]

theorem kinds_isolated_emailAndReports :
    ownIds (· = "email") (exec Jobs.empty emailAndReports).1 = [2] ∧
      Run GapStep Jobs.empty
        ((exec Jobs.empty emailAndReports).1.map
          (Event.seen (· = "email") fun j ↦
            j ∈ ownIds (· = "email") (exec Jobs.empty emailAndReports).1))
        (ownJobs (· = "email") (exec Jobs.empty emailAndReports).2) :=
  ⟨by decide, kinds_isolated (run_exec Jobs.empty emailAndReports) ⟨by decide, by decide⟩⟩

end Relay.Queue
