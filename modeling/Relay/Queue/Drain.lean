import Relay.Queue.RowMachine

/-!
# Claims at one moment

`claimEach` is any number of `claim` calls with one reading of the clock and nothing between them.
A claim takes the first row of the selection, which is before all others (`ClaimBefore`), and leaves
the others in their order, under whatever filter they are selected (`claimableRows_claim`). A claim
with a filter does what a claim without one does on the table of these kinds alone (`restrict`).
So as many unfiltered claims as `stats` counts ready jobs return these jobs, each once and in the
order of the queue, and one more returns nothing (`claims_drain`).
-/

set_option autoImplicit false
set_option relaxedAutoImplicit false

namespace Relay.Queue

open Foundations Store

variable {τ : Type*} [Add τ] [LinearOrder τ]

/-- The arguments of a `claim` other than its time. -/
structure ClaimCall (τ : Type*) where
  workerId : Option String
  kinds : Option (List String) := none
  leaseS : τ
deriving DecidableEq, Repr

/-- Successive claims at one time: what each returned, and the table after them. -/
def claimEach (jobs : Jobs τ) (now : τ) :
    List (ClaimCall τ) → List (Option (JobRow τ)) × Jobs τ
  | [] => ([], jobs)
  | call :: rest =>
    let (jobs', job) := claim jobs call.workerId call.kinds call.leaseS now
    (job :: (claimEach jobs' now rest).1, (claimEach jobs' now rest).2)

/-- The claimable rows, in the order in which `claim` takes them. -/
def claimableRows (jobs : Jobs τ) (kinds : Option (List String)) (now : τ) : List (JobRow τ) :=
  Table.selectOrdered ClaimOrder (Claimable kinds now) jobs.rows

omit [Add τ] in
theorem mem_claimableRows {jobs : Jobs τ} {kinds : Option (List String)} {now : τ}
    {row : JobRow τ} :
    row ∈ claimableRows jobs kinds now ↔ row ∈ jobs.rows ∧ Claimable kinds now row :=
  Table.mem_selectOrdered

omit [Add τ] in
/-- `stats` counts the rows that unfiltered claims take. -/
theorem readyCount_eq (jobs : Jobs τ) (now : τ) :
    readyCount jobs now = (claimableRows jobs none now).length := by
  rw [claimableRows, Table.selectOrdered_perm.length_eq, readyCount, List.countP_eq_length_filter]
  simp [Claimable]

/-- A claim takes its row out of every selection and leaves the others in their order. -/
theorem claimableRows_claim {jobs : Jobs τ} {workerId : Option String} {leaseS now : τ}
    (row : JobRow τ) (kinds : Option (List String)) (time : τ) :
    claimableRows (jobs.update (fun other ↦ other.id = row.id) (claimed workerId leaseS now)
        (ticket_claimed workerId leaseS now)) kinds time =
      (claimableRows jobs kinds time).filter fun other ↦ other.id ≠ row.id := by
  have hleaves : ∀ other, other.id = row.id →
      ¬ Claimable kinds time (claimed workerId leaseS now other) := by
    intro other _ hclaim
    exact absurd hclaim.1.1 (by simp [claimed])
  have hantisymm : ∀ a ∈ jobs.rows, ∀ b ∈ jobs.rows, ClaimOrder a b → ClaimOrder b a → a = b := by
    intro a ha b hb hab hba
    refine Jobs.eq_of_id ha hb ?_
    unfold ClaimOrder at hab hba
    omega
  rw [claimableRows, claimableRows, ← Table.selectOrdered_and hantisymm, Table.selectOrdered,
    Table.selectOrdered, Jobs.update, Table.filter_updateWhere hleaves]

omit [Add τ] in
/-- The rows left after a claim are those behind the one it returns. -/
theorem claimableRows_tail {jobs : Jobs τ} {kinds : Option (List String)} {now : τ}
    {row : JobRow τ} {rest : List (JobRow τ)} (hrows : claimableRows jobs kinds now = row :: rest) :
    ((claimableRows jobs kinds now).filter fun other ↦ other.id ≠ row.id) = rest := by
  have hdistinct : (row :: rest).Pairwise fun a b ↦ a.id ≠ b.id := by
    rw [← hrows]
    refine (Table.selectOrdered_perm.pairwise_iff fun {_ _} h ↦ h.symm).mpr ?_
    exact jobs.distinct.filter _
  rw [hrows, List.filter_cons_of_neg (by simp), List.filter_eq_self]
  intro other hother
  simpa using ((List.pairwise_cons.mp hdistinct).1 other hother).symm

/-- A claim finds nothing claimable and changes nothing, or takes the first claimable row. -/
theorem claim_first (jobs : Jobs τ) (workerId : Option String) (kinds : Option (List String))
    (leaseS now : τ) :
    (claimableRows jobs kinds now = [] ∧ claim jobs workerId kinds leaseS now = (jobs, none)) ∨
    ∃ row rest jobs', claimableRows jobs kinds now = row :: rest ∧
      claim jobs workerId kinds leaseS now = (jobs', some (claimed workerId leaseS now row)) ∧
      claimableRows jobs' kinds now = rest := by
  rcases claim_cases jobs workerId kinds leaseS now with h | ⟨row, rest, hrows, hclaim⟩
  · exact .inl h
  · exact .inr ⟨row, rest, _, hrows, hclaim,
      (claimableRows_claim row kinds now).trans (claimableRows_tail hrows)⟩

/-- Unfiltered claims return the ready jobs, each once, in their order, and then nothing. -/
theorem claimEach_ready (now : τ) (calls : List (ClaimCall τ))
    (hall : ∀ call ∈ calls, call.kinds = none) (jobs : Jobs τ)
    (hlength : calls.length = readyCount jobs now) :
    (claimEach jobs now calls).1.map (Option.map JobRow.id) =
        (claimableRows jobs none now).map (fun row ↦ some row.id) ∧
      ∀ workerId leaseS,
        claim (claimEach jobs now calls).2 workerId none leaseS now =
          ((claimEach jobs now calls).2, none) := by
  rw [readyCount_eq] at hlength
  induction calls generalizing jobs with
  | nil =>
    have hnil : claimableRows jobs none now = [] := List.length_eq_zero_iff.mp hlength.symm
    refine ⟨by rw [hnil]; rfl, fun workerId leaseS ↦ ?_⟩
    rcases claim_first jobs workerId none leaseS now with ⟨-, hclaim⟩ | ⟨row, rest, _, hrows, -⟩
    · exact hclaim
    · rw [hnil] at hrows
      cases hrows
  | cons call rest ih =>
    have hkinds : call.kinds = none := hall call (List.mem_cons_self ..)
    rcases claim_first jobs call.workerId none call.leaseS now with
      ⟨hnil, -⟩ | ⟨row, rows, jobs', hrows, hclaim, htail⟩
    · rw [hnil] at hlength
      cases hlength
    · have hrest : rest.length = (claimableRows jobs' none now).length := by
        rw [hrows] at hlength
        rw [htail]
        exact Nat.succ.inj hlength
      obtain ⟨hids, hnone⟩ := ih (fun c hc ↦ hall c (List.mem_cons_of_mem _ hc)) jobs' hrest
      rw [claimEach, hkinds, hclaim, hrows, List.map_cons, List.map_cons, hids, htail]
      exact ⟨rfl, hnone⟩

/-- So a job that is ready is returned by exactly one of these claims. -/
theorem countP_claimEach_ready {jobs : Jobs τ} {now : τ} {calls : List (ClaimCall τ)}
    (hall : ∀ call ∈ calls, call.kinds = none) (hlength : calls.length = readyCount jobs now)
    {row : JobRow τ} (hrow : row ∈ jobs.rows) (hready : Ready now row) :
    (claimEach jobs now calls).1.countP (fun job ↦ job.map JobRow.id = some row.id) = 1 := by
  have hids := (claimEach_ready now calls hall jobs hlength).1
  have hmem : row ∈ claimableRows jobs none now := mem_claimableRows.mpr ⟨hrow, hready, nofun⟩
  have hnodup : ((claimableRows jobs none now).map fun row ↦ some row.id).Nodup := by
    refine List.pairwise_map.mpr (((Table.selectOrdered_perm.pairwise_iff
      fun {_ _} h ↦ h.symm).mpr (jobs.distinct.filter _)).imp fun h heq ↦ h (Option.some.inj heq))
  have hcount := List.count_eq_one_of_mem hnodup (List.mem_map_of_mem hmem)
  rw [← hids, List.count, List.countP_map] at hcount
  rw [← hcount]
  refine List.countP_congr fun job _ ↦ ?_
  simp only [Function.comp_apply, beq_iff_eq, decide_eq_true_eq]

/-! ### What each claim takes -/

/-- The order in which `claim` takes rows: by priority, and by id among those of one priority. -/
def ClaimBefore (a b : JobRow τ) : Prop :=
  b.priority < a.priority ∨ (a.priority = b.priority ∧ a.id < b.id)

omit [Add τ] in
/-- The claimable rows are sorted, without ties. -/
theorem claimableRows_sorted (jobs : Jobs τ) (kinds : Option (List String)) (now : τ) :
    (claimableRows jobs kinds now).Pairwise ClaimBefore := by
  have hdistinct : (claimableRows jobs kinds now).Pairwise fun a b ↦ a.id ≠ b.id :=
    (Table.selectOrdered_perm.pairwise_iff fun {_ _} h ↦ h.symm).mpr (jobs.distinct.filter _)
  refine (Table.selectOrdered_pairwise.and hdistinct).imp ?_
  rintro a b ⟨horder, hne⟩
  unfold ClaimOrder at horder
  unfold ClaimBefore
  omega

/-- The rows of some kinds; without a filter, all of them. -/
def restrict (jobs : Jobs τ) (kinds : Option (List String)) : Jobs τ where
  rows := jobs.rows.filter fun row ↦ ∀ ks ∈ kinds, row.kind ∈ ks
  sequence := jobs.sequence
  increasing := jobs.increasing.filter _
  bounded := fun row hrow ↦ jobs.bounded row (List.mem_of_mem_filter hrow)
  unique := jobs.unique.filter _

omit [Add τ] in
theorem claimableRows_restrict (jobs : Jobs τ) (kinds : Option (List String)) (now : τ) :
    claimableRows (restrict jobs kinds) none now = claimableRows jobs kinds now := by
  unfold claimableRows Table.selectOrdered restrict
  rw [List.filter_filter]
  congr 2
  ext row
  simp [Claimable]

/-- A claim of some kinds acts as an unfiltered claim does on the rows of these kinds. -/
theorem claim_restrict (jobs : Jobs τ) (workerId : Option String) (kinds : Option (List String))
    (leaseS now : τ) : claim (restrict jobs kinds) workerId none leaseS now =
      (restrict (claim jobs workerId kinds leaseS now).1 kinds,
        (claim jobs workerId kinds leaseS now).2) := by
  have hrows := claimableRows_restrict jobs kinds now
  unfold claimableRows at hrows
  rcases claim_cases jobs workerId kinds leaseS now with ⟨hnil, hclaim⟩ | ⟨row, rest, hrow, hclaim⟩
  · rcases claim_cases (restrict jobs kinds) workerId none leaseS now with
      ⟨-, hclaim'⟩ | ⟨_, _, hrow', -⟩
    · rw [hclaim, hclaim']
    · rw [hrows, hnil] at hrow'
      cases hrow'
  · rcases claim_cases (restrict jobs kinds) workerId none leaseS now with
      ⟨hnil', -⟩ | ⟨row', rest', hrow', hclaim'⟩
    · rw [hrows, hrow] at hnil'
      cases hnil'
    · rw [hrows, hrow] at hrow'
      obtain ⟨rfl, -⟩ := List.cons.inj hrow'
      rw [hclaim, hclaim']
      refine Prod.ext (Jobs.ext ?_ rfl) rfl
      unfold Jobs.update restrict Table.updateWhere
      dsimp only
      rw [List.filter_map]
      congr 2
      ext other
      by_cases h : other.id = row.id <;> simp [h, claimed]

/-- Every job that a sequence of claims returns was queued before. -/
theorem queued_of_mem_claimEach {jobs : Jobs τ} {now : τ} {calls : List (ClaimCall τ)}
    {job : JobRow τ} (h : some job ∈ (claimEach jobs now calls).1) :
    ∃ row, jobs.row? job.id = some row ∧ row.status = .queued := by
  induction calls generalizing jobs with
  | nil => cases h
  | cons call rest ih =>
    rw [claimEach] at h
    rcases claim_cases jobs call.workerId call.kinds call.leaseS now with
      ⟨-, hclaim⟩ | ⟨row, rows, hrows, hclaim⟩
    · rw [hclaim] at h
      rcases List.mem_cons.mp h with h | h
      · cases h
      · exact ih h
    · have hrow : row ∈ jobs.rows ∧ Claimable call.kinds now row :=
        Table.mem_selectOrdered.mp (hrows ▸ List.mem_cons_self ..)
      rw [hclaim] at h
      rcases List.mem_cons.mp h with h | h
      · obtain rfl := Option.some.inj h
        exact ⟨row, Jobs.row?_of_mem hrow.1, hrow.2.1.1⟩
      · obtain ⟨old, hold, hqueued⟩ := ih h
        rw [row?_claim hrow.1] at hold
        split_ifs at hold
        · rw [← Option.some.inj hold] at hqueued
          cases hqueued
        · exact ⟨old, hold, hqueued⟩

/-- No job is returned twice. -/
theorem claimEach_nodup (jobs : Jobs τ) (now : τ) (calls : List (ClaimCall τ)) :
    (((claimEach jobs now calls).1.filterMap id).map JobRow.id).Nodup := by
  induction calls generalizing jobs with
  | nil => exact List.nodup_nil
  | cons call rest ih =>
    rw [claimEach]
    rcases claim_cases jobs call.workerId call.kinds call.leaseS now with
      ⟨-, hclaim⟩ | ⟨row, rows, hrows, hclaim⟩
    · rw [hclaim]
      exact ih jobs
    · have hrow : row ∈ jobs.rows :=
        (Table.mem_selectOrdered.mp (hrows ▸ List.mem_cons_self ..)).1
      rw [hclaim]
      refine List.nodup_cons.mpr ⟨fun hagain ↦ ?_, ih _⟩
      obtain ⟨job, hjob, hid⟩ := List.mem_map.mp hagain
      obtain ⟨_, hmem, rfl⟩ := List.mem_filterMap.mp hjob
      have hsame : job.id = row.id := hid
      -- a job that is returned is leased from then on
      obtain ⟨old, hold, hqueued⟩ := queued_of_mem_claimEach hmem
      rw [row?_claim hrow, if_pos hsame] at hold
      rw [← Option.some.inj hold] at hqueued
      cases hqueued

/-- Unfiltered claims return the ready jobs in the order of the queue, and then nothing. -/
theorem claimEach_unfiltered (now : τ) (calls : List (ClaimCall τ))
    (hall : ∀ call ∈ calls, call.kinds = none) (jobs : Jobs τ) :
    (claimEach jobs now calls).1 =
      List.zipWith (fun call row ↦ some (claimed call.workerId call.leaseS now row)) calls
          (claimableRows jobs none now) ++
        List.replicate (calls.length - (claimableRows jobs none now).length) none := by
  induction calls generalizing jobs with
  | nil => simp [claimEach]
  | cons call rest ih =>
    have hkinds : call.kinds = none := hall call (List.mem_cons_self ..)
    have hrest := ih fun c hc ↦ hall c (List.mem_cons_of_mem _ hc)
    rcases claim_first jobs call.workerId none call.leaseS now with
      ⟨hnil, hclaim⟩ | ⟨row, rows, jobs', hrows, hclaim, htail⟩
    · rw [claimEach, hkinds, hclaim]
      simp [hrest, hnil, List.replicate_succ]
    · rw [claimEach, hkinds, hclaim]
      simp [hrest, hrows, htail]

/-- A claim returns nothing and changes nothing exactly when no row can be claimed. -/
theorem claim_eq_none_iff (jobs : Jobs τ) (workerId : Option String) (kinds : Option (List String))
    (leaseS now : τ) : claim jobs workerId kinds leaseS now = (jobs, none) ↔
      ∀ row ∈ jobs.rows, ¬ Claimable kinds now row := by
  rcases claim_first jobs workerId kinds leaseS now with
    ⟨hnil, hclaim⟩ | ⟨row, rest, _, hrows, hclaim, -⟩
  · refine iff_of_true hclaim fun row hrow hclaimable ↦ ?_
    have hmem : row ∈ claimableRows jobs kinds now := mem_claimableRows.mpr ⟨hrow, hclaimable⟩
    rw [hnil] at hmem
    cases hmem
  · have hrow := mem_claimableRows.mp (hrows ▸ List.mem_cons_self ..)
    refine iff_of_false (fun hnone ↦ ?_) fun hnone ↦ hnone row hrow.1 hrow.2
    rw [hclaim] at hnone
    cases congrArg Prod.snd hnone

/-- Otherwise it claims the row that is before all others that can be claimed. -/
theorem claim_eq_first {jobs : Jobs τ} {kinds : Option (List String)} {now : τ}
    (workerId : Option String) (leaseS : τ) (h : ∃ row ∈ jobs.rows, Claimable kinds now row) :
    ∃ first ∈ jobs.rows, Claimable kinds now first ∧
      (∀ row ∈ jobs.rows, Claimable kinds now row → row = first ∨ ClaimBefore first row) ∧
      claim jobs workerId kinds leaseS now =
        (jobs.update (fun row ↦ row.id = first.id) (claimed workerId leaseS now)
          (ticket_claimed workerId leaseS now), some (claimed workerId leaseS now first)) := by
  obtain ⟨wanted, hwanted, hready⟩ := h
  have hmem : wanted ∈ claimableRows jobs kinds now := mem_claimableRows.mpr ⟨hwanted, hready⟩
  rcases claim_cases jobs workerId kinds leaseS now with ⟨hnil, -⟩ | ⟨first, rest, hrows, hclaim⟩
  · rw [claimableRows, hnil] at hmem
    cases hmem
  · obtain ⟨hfirst, hclaimable⟩ := Table.mem_selectOrdered.mp (hrows ▸ List.mem_cons_self ..)
    have hsorted := claimableRows_sorted jobs kinds now
    rw [claimableRows, hrows] at hsorted
    refine ⟨first, hfirst, hclaimable, fun row hrow hready ↦ ?_, hclaim⟩
    have hlist : row ∈ claimableRows jobs kinds now := mem_claimableRows.mpr ⟨hrow, hready⟩
    rw [claimableRows, hrows] at hlist
    exact (List.mem_cons.mp hlist).imp_right fun hrest ↦
      (List.pairwise_cons.mp hsorted).1 row hrest

/-- Claims drain the ready jobs in order. A claim returns nothing and changes nothing exactly when
no row is queued, due and of one of its kinds; otherwise it returns the first of these rows by
priority and then id, and changes that row alone. A claim of some kinds acts as an unfiltered one
does on the rows of these kinds. Successive claims at one time return no job twice, and when they
are unfiltered they return the ready rows, of which there are as many as `stats` counts, sorted by
priority and then id, and after them nothing. -/
theorem claims_drain (jobs : Jobs τ) (now : τ) :
    (∀ workerId kinds leaseS,
      (claim jobs workerId kinds leaseS now = (jobs, none) ↔
        ∀ row ∈ jobs.rows, ¬ Claimable kinds now row) ∧
      ((∃ row ∈ jobs.rows, Claimable kinds now row) →
        ∃ first ∈ jobs.rows, Claimable kinds now first ∧
          (∀ row ∈ jobs.rows, Claimable kinds now row → row = first ∨ ClaimBefore first row) ∧
          (claim jobs workerId kinds leaseS now).2 = some (claimed workerId leaseS now first) ∧
          ∀ id, (claim jobs workerId kinds leaseS now).1.row? id =
            if id = first.id then some (claimed workerId leaseS now first) else jobs.row? id) ∧
      claim (restrict jobs kinds) workerId none leaseS now =
        (restrict (claim jobs workerId kinds leaseS now).1 kinds,
          (claim jobs workerId kinds leaseS now).2)) ∧
    (∀ calls, (((claimEach jobs now calls).1.filterMap id).map JobRow.id).Nodup) ∧
    ∃ rows : List (JobRow τ), rows.Perm (jobs.rows.filter fun row ↦ Ready now row) ∧
      rows.Pairwise ClaimBefore ∧ rows.length = (stats jobs now).ready ∧
      ∀ calls : List (ClaimCall τ), (∀ call ∈ calls, call.kinds = none) →
        (claimEach jobs now calls).1 =
          List.zipWith (fun call row ↦ some (claimed call.workerId call.leaseS now row)) calls
            rows ++ List.replicate (calls.length - rows.length) none := by
  refine ⟨fun workerId kinds leaseS ↦ ⟨claim_eq_none_iff jobs workerId kinds leaseS now,
      fun hready ↦ ?_, claim_restrict jobs workerId kinds leaseS now⟩,
    claimEach_nodup jobs now, claimableRows jobs none now, ?_, claimableRows_sorted jobs none now,
    (readyCount_eq jobs now).symm, fun calls hall ↦ claimEach_unfiltered now calls hall jobs⟩
  · obtain ⟨first, hfirst, hclaimable, hbefore, hclaim⟩ := claim_eq_first workerId leaseS hready
    refine ⟨first, hfirst, hclaimable, hbefore, by rw [hclaim], fun id ↦ ?_⟩
    rw [hclaim, row?_claim hfirst]
  · refine Table.selectOrdered_perm.trans (.of_eq ?_)
    simp [Claimable]

end Relay.Queue
