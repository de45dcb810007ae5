import Relay.Foundations.Run
import Mathlib.Order.Lattice

/-!
# The lease protocol on one resource

A resource is free, held by an owner up to a deadline, or retired. It is granted when free; its
owner may renew the lease with a new deadline, surrender it, or retire the resource for good; and
anyone may take back a lease once its deadline lies strictly in the past. Owners and times are
arbitrary: the protocol only compares times.

A lease lives from its grant to the next grant (`ofDelivery`), and `lastDeadline` is the deadline
the owner was given last in that time. `lease_over` is the law of the protocol: a held resource
that has become free again was surrendered by its owner, or was taken back at a time later than
the last deadline. With times that never decrease this gives `exclusive` and `not_active`, that no
two grants are ever active at once. `held_history` reads the owner and the deadline of a held
resource off the history. When no renewal shortens a lease, `kept` says that the owner has it until
it gives it up or a deadline it was given has passed.
-/

set_option autoImplicit false
set_option relaxedAutoImplicit false

namespace Relay.Foundations.Lease

/-- The states of a leased resource. -/
inductive LeaseState (ω τ : Type*)
  | free
  | held (owner : ω) (deadline : τ)
  | retired

/-- What happens to a leased resource. Only a grant and a taking back carry a time. -/
inductive LeaseEvent (ω τ : Type*)
  | grant (owner : ω) (deadline time : τ)
  | renew (owner : ω) (deadline : τ)
  | surrender (owner : ω)
  | expire (time : τ)
  | retire (owner : ω)

variable {ω τ : Type*}

/-- The steps of the protocol. -/
inductive Step [LT τ] : LeaseState ω τ → LeaseEvent ω τ → LeaseState ω τ → Prop
  | grant (owner : ω) (deadline time : τ) :
      Step .free (.grant owner deadline time) (.held owner deadline)
  | renew (owner : ω) (deadline later : τ) :
      Step (.held owner deadline) (.renew owner later) (.held owner later)
  | surrender (owner : ω) (deadline : τ) : Step (.held owner deadline) (.surrender owner) .free
  | expire (owner : ω) {deadline time : τ} (passed : deadline < time) :
      Step (.held owner deadline) (.expire time) .free
  | retire (owner : ω) (deadline : τ) : Step (.held owner deadline) (.retire owner) .retired

def LeaseEvent.isGrant : LeaseEvent ω τ → Bool
  | .grant .. => true
  | _ => false

/-- The part of the history after a grant that belongs to its lease: all up to the next grant. -/
def ofDelivery (since : List (LeaseEvent ω τ)) : List (LeaseEvent ω τ) :=
  since.takeWhile fun e ↦ !e.isGrant

/-- The deadline the owner was given last, starting from the one of the grant. -/
def lastDeadline : τ → List (LeaseEvent ω τ) → τ
  | deadline, [] => deadline
  | _, .renew _ later :: es => lastDeadline later es
  | deadline, _ :: es => lastDeadline deadline es

/-- At time `now` the owner still has the lease it was granted: it has not given it back and its
last deadline has not passed. -/
def Active [LE τ] (owner : ω) (deadline : τ) (since : List (LeaseEvent ω τ)) (now : τ) : Prop :=
  .surrender owner ∉ ofDelivery since ∧ .retire owner ∉ ofDelivery since ∧
    now ≤ lastDeadline deadline (ofDelivery since)

theorem ofDelivery_append_grant (between after : List (LeaseEvent ω τ)) (owner : ω)
    (deadline time : τ) :
    ofDelivery (between ++ .grant owner deadline time :: after) = ofDelivery between := by
  induction between with
  | nil => rfl
  | cons e between ih =>
    by_cases he : e.isGrant <;> simp [ofDelivery, he]
    exact ih

theorem mem_of_mem_ofDelivery {e : LeaseEvent ω τ} {es : List (LeaseEvent ω τ)}
    (h : e ∈ ofDelivery es) : e ∈ es := (List.takeWhile_sublist _).subset h

theorem lastDeadline_append_renew (deadline later : τ) (owner : ω) (es : List (LeaseEvent ω τ)) :
    lastDeadline deadline (es ++ [.renew owner later]) = later := by
  induction es generalizing deadline with
  | nil => rfl
  | cons e es ih => cases e <;> exact ih _

section Order

variable [LT τ]

/-- Nothing happens to a free resource before its next grant. -/
theorem ofDelivery_of_free {s : LeaseState ω τ} {es : List (LeaseEvent ω τ)}
    (h : Run Step .free es s) : ofDelivery es = [] := by
  cases h with
  | nil => rfl
  | cons head _ =>
    cases head
    rfl

theorem eq_nil_of_retired {s : LeaseState ω τ} {es : List (LeaseEvent ω τ)}
    (h : Run Step .retired es s) : es = [] ∧ s = .retired := by
  cases h with
  | nil => exact ⟨rfl, rfl⟩
  | cons head _ => cases head

/-- A held resource that is free again was surrendered by its owner, or was taken back at a time
later than the last deadline its owner was given. -/
theorem lease_over {owner : ω} {deadline : τ} {between : List (LeaseEvent ω τ)}
    (h : Run Step (.held owner deadline) between .free) :
    .surrender owner ∈ ofDelivery between ∨
      ∃ time, .expire time ∈ ofDelivery between ∧
        lastDeadline deadline (ofDelivery between) < time := by
  induction between generalizing deadline with
  | nil => simp at h
  | cons e between ih =>
    obtain ⟨middle, head, tail⟩ := Run.cons_iff.mp h
    cases head with
    | renew _ _ later =>
      rcases ih tail with hsurrender | ⟨time, htime, hlast⟩
      · exact .inl (List.mem_cons_of_mem _ hsurrender)
      · exact .inr ⟨time, List.mem_cons_of_mem _ htime, hlast⟩
    | surrender => exact .inl (List.mem_cons_self ..)
    | expire _ passed =>
      refine .inr ⟨_, List.mem_cons_self .., ?_⟩
      change lastDeadline deadline (ofDelivery between) < _
      rwa [ofDelivery_of_free tail]
    | retire => cases (eq_nil_of_retired tail).2

/-- What is granted is never retired and granted again. -/
theorem not_granted_after_retire {s t : LeaseState ω τ} {before after : List (LeaseEvent ω τ)}
    {owner : ω} (h : Run Step s (before ++ .retire owner :: after) t) : after = [] := by
  obtain ⟨_, _, _, hretire, htail⟩ := h.at_label
  cases hretire
  exact (eq_nil_of_retired htail).1

/-- The history of a held resource: its last grant was to the owner, only renewals by the owner
came after it, and the deadline is the last one given. -/
theorem held_history {es : List (LeaseEvent ω τ)} {owner : ω} {deadline : τ}
    (h : Run Step .free es (.held owner deadline)) :
    ∃ before first time since, es = before ++ .grant owner first time :: since ∧
      (∀ e ∈ since, ∃ later, e = .renew owner later) ∧ lastDeadline first since = deadline := by
  refine h.history (motive := fun es s ↦ ∀ owner deadline, s = .held owner deadline →
    ∃ before first time since, es = before ++ .grant owner first time :: since ∧
      (∀ e ∈ since, ∃ later, e = .renew owner later) ∧ lastDeadline first since = deadline)
    ?_ ?_ owner deadline rfl
  · intro _ _ hfree
    cases hfree
  · rintro es t e u - ih step owner deadline rfl
    cases step with
    | grant => exact ⟨es, deadline, _, [], rfl, by simp, rfl⟩
    | renew _ previous _ =>
      obtain ⟨before, first, time, since, rfl, hrenew, -⟩ := ih owner previous rfl
      refine ⟨before, first, time, since ++ [.renew owner deadline], by simp, ?_,
        lastDeadline_append_renew first deadline owner since⟩
      intro e he
      rcases List.mem_append.mp he with he | he
      · exact hrenew e he
      · exact ⟨deadline, List.mem_singleton.mp he⟩

end Order

/-- The step does not renew a lease to an earlier deadline than it has. -/
def NeverShortens [LE τ] (s : LeaseState ω τ) (e : LeaseEvent ω τ) (_ : LeaseState ω τ) : Prop :=
  ∀ owner deadline later, s = .held owner deadline → e = .renew owner later → deadline ≤ later

section Clock

variable [LinearOrder τ]

/-- When no renewal shortens a lease, its owner has it until it gives it back or retires the
resource, or the deadline it was granted has passed. -/
theorem kept {owner : ω} {deadline : τ} {es : List (LeaseEvent ω τ)} {s : LeaseState ω τ}
    (h : Run (Throughout Step NeverShortens) (.held owner deadline) es s) :
    (∃ later, deadline ≤ later ∧ s = .held owner later) ∨ .surrender owner ∈ es ∨
      .retire owner ∈ es ∨ ∃ time, .expire time ∈ es ∧ deadline < time := by
  induction es generalizing deadline with
  | nil => exact .inl ⟨deadline, le_rfl, (Run.nil_iff.mp h).symm⟩
  | cons e es ih =>
    obtain ⟨middle, ⟨head, hnever⟩, tail⟩ := Run.cons_iff.mp h
    cases head with
    | renew _ _ later =>
      have hle : deadline ≤ later := hnever owner deadline later rfl rfl
      rcases ih tail with ⟨last, hlast, rfl⟩ | hsurrender | hretire | ⟨time, htime, hpassed⟩
      · exact .inl ⟨last, hle.trans hlast, rfl⟩
      · exact .inr (.inl (List.mem_cons_of_mem _ hsurrender))
      · exact .inr (.inr (.inl (List.mem_cons_of_mem _ hretire)))
      · exact .inr (.inr (.inr ⟨time, List.mem_cons_of_mem _ htime, hle.trans_lt hpassed⟩))
    | surrender => exact .inr (.inl (List.mem_cons_self ..))
    | expire _ passed => exact .inr (.inr (.inr ⟨_, List.mem_cons_self .., passed⟩))
    | retire => exact .inr (.inr (.inl (List.mem_cons_self ..)))

/-- With times that never decrease, the lease of an earlier grant was over before a later one. -/
theorem exclusive {s t : LeaseState ω τ} {before between after : List (LeaseEvent ω τ)}
    {owner₁ owner₂ : ω} {deadline₁ time₁ deadline₂ time₂ : τ}
    (hrun : Run Step s (before ++ .grant owner₁ deadline₁ time₁ ::
      (between ++ .grant owner₂ deadline₂ time₂ :: after)) t)
    (hclock : ∀ time, .expire time ∈ between → time ≤ time₂) :
    .surrender owner₁ ∈ ofDelivery between ∨
      lastDeadline deadline₁ (ofDelivery between) < time₂ := by
  obtain ⟨_, _, _, hfirst, hrest⟩ := hrun.at_label
  obtain ⟨_, _, hbetween, hsecond, _⟩ := hrest.at_label
  cases hfirst
  cases hsecond
  rcases lease_over hbetween with hsurrender | ⟨time, htime, hlast⟩
  · exact .inl hsurrender
  · exact .inr (hlast.trans_le (hclock time (mem_of_mem_ofDelivery htime)))

/-- An earlier grant is no longer active from the time of a later one on. -/
theorem not_active {s t : LeaseState ω τ} {before between after : List (LeaseEvent ω τ)}
    {owner₁ owner₂ : ω} {deadline₁ time₁ deadline₂ time₂ : τ}
    (hrun : Run Step s (before ++ .grant owner₁ deadline₁ time₁ ::
      (between ++ .grant owner₂ deadline₂ time₂ :: after)) t)
    (hclock : ∀ time, .expire time ∈ between → time ≤ time₂) {now : τ} (hnow : time₂ ≤ now) :
    ¬ Active owner₁ deadline₁ (between ++ .grant owner₂ deadline₂ time₂ :: after) now := by
  rintro ⟨hkept, -, hlast⟩
  rw [ofDelivery_append_grant] at hkept hlast
  rcases exclusive hrun hclock with hsurrender | hpassed
  · exact hkept hsurrender
  · exact absurd (hnow.trans hlast) (not_le.mpr hpassed)

end Clock

end Relay.Foundations.Lease
