import Mathlib.Data.List.Sublists
import Mathlib.Order.Basic
import Mathlib.Tactic.Ring

/-!
# Runs of labelled transition relations

A relation `step before label after` says which labelled steps a system can take. `Run step s es t`
is a finite run from `s` to `t` whose labels, oldest first, are `es`: the list is the history of
the run, so a property of a whole run is a property of that list. The rules here are the ones the
results about runs use. `Run.append_iff` cuts a run at any point of its history, `Run.history` is
induction on a history that grows at its end, `Run.invariant`, `Run.invariant_of_labels` and
`Run.relates` lift what one step keeps or relates to whole runs, and `Run.project` is the simulation
rule: a view of the states and of the labels that turns every step into a step of a second system,
or into none, turns runs into runs. Where the second system is a function, a run is a fold over its
history (`Run.foldl`), a number that goes up by one at some labels counts them (`Run.countP`), and
`Run.balance` is the same for a number that labels raise and lower. `execute` computes runs.
-/

set_option autoImplicit false
set_option relaxedAutoImplicit false

namespace Relay.Foundations

variable {σ ε σ' ε' : Type*}

/-- A finite run of `step` and its labels, oldest first. -/
inductive Run (step : σ → ε → σ → Prop) : σ → List ε → σ → Prop
  | nil (s : σ) : Run step s [] s
  | cons {s t u : σ} {e : ε} {es : List ε} (head : step s e t) (tail : Run step t es u) :
      Run step s (e :: es) u

/-- A step restricted to those that satisfy `property` of their two states and their label. A run
of it is a run that satisfies the property at every step. -/
def Throughout (step property : σ → ε → σ → Prop) (s : σ) (e : ε) (t : σ) : Prop :=
  step s e t ∧ property s e t

namespace Run

variable {step : σ → ε → σ → Prop}

theorem single {s t : σ} {e : ε} (h : step s e t) : Run step s [e] t := .cons h (.nil t)

@[simp] theorem nil_iff {s t : σ} : Run step s [] t ↔ s = t := by
  constructor
  · intro h
    cases h
    rfl
  · rintro rfl
    exact .nil s

theorem cons_iff {s u : σ} {e : ε} {es : List ε} :
    Run step s (e :: es) u ↔ ∃ t, step s e t ∧ Run step t es u := by
  constructor
  · intro h
    cases h with
    | cons head tail => exact ⟨_, head, tail⟩
  · rintro ⟨t, head, tail⟩
    exact .cons head tail

/-- A run can be cut at any point of its history. -/
theorem append_iff {s u : σ} {es fs : List ε} :
    Run step s (es ++ fs) u ↔ ∃ t, Run step s es t ∧ Run step t fs u := by
  induction es generalizing s with
  | nil => simp
  | cons e es ih =>
    rw [List.cons_append, cons_iff]
    constructor
    · rintro ⟨r, head, tail⟩
      obtain ⟨t, hleft, hright⟩ := ih.mp tail
      exact ⟨t, .cons head hleft, hright⟩
    · rintro ⟨t, hleft, hright⟩
      obtain ⟨r, head, tail⟩ := cons_iff.mp hleft
      exact ⟨r, head, ih.mpr ⟨t, tail, hright⟩⟩

theorem append {s t u : σ} {es fs : List ε} (hleft : Run step s es t) (hright : Run step t fs u) :
    Run step s (es ++ fs) u := append_iff.mpr ⟨t, hleft, hright⟩

/-- The state in which a label of the history was taken, and the step itself. -/
theorem at_label {s u : σ} {es fs : List ε} {e : ε} (h : Run step s (es ++ e :: fs) u) :
    ∃ before after, Run step s es before ∧ step before e after ∧ Run step after fs u := by
  obtain ⟨before, hleft, hright⟩ := append_iff.mp h
  obtain ⟨after, head, tail⟩ := cons_iff.mp hright
  exact ⟨before, after, hleft, head, tail⟩

/-- Induction on the history of a run, one step at its end at a time. -/
theorem history {s : σ} {motive : List ε → σ → Prop} (start : motive [] s)
    (next : ∀ es t e u, Run step s es t → motive es t → step t e u → motive (es ++ [e]) u)
    {es : List ε} {u : σ} (h : Run step s es u) : motive es u := by
  induction es using List.reverseRecOn generalizing u with
  | nil =>
    rw [nil_iff] at h
    exact h ▸ start
  | append_singleton es e ih =>
    obtain ⟨t, hleft, hright⟩ := append_iff.mp h
    obtain ⟨u', hstep, hnil⟩ := cons_iff.mp hright
    rw [nil_iff] at hnil
    subst hnil
    exact next es t e u' hleft (ih hleft) hstep

/-- What holds at the start and is kept by every step holds at the end. -/
theorem invariant (inv : σ → Prop) (keeps : ∀ s e t, inv s → step s e t → inv t)
    {s u : σ} {es : List ε} (h : Run step s es u) (hs : inv s) : inv u := by
  induction h with
  | nil => exact hs
  | cons head _ ih => exact ih (keeps _ _ _ hs head)

/-- A reflexive and transitive relation that holds across every step holds across a run. -/
theorem relates (rel : σ → σ → Prop) (refl : ∀ s, rel s s)
    (trans : ∀ s t u, rel s t → rel t u → rel s u) (across : ∀ s e t, step s e t → rel s t)
    {s u : σ} {es : List ε} (h : Run step s es u) : rel s u := by
  induction h with
  | nil s => exact refl s
  | cons head _ ih => exact trans _ _ _ (across _ _ _ head) ih

theorem mono {step' : σ → ε → σ → Prop} (sub : ∀ s e t, step s e t → step' s e t)
    {s u : σ} {es : List ε} (h : Run step s es u) : Run step' s es u := by
  induction h with
  | nil s => exact .nil s
  | cons head _ ih => exact .cons (sub _ _ _ head) ih

/-- A stronger property of the steps may rest on an invariant of the states. -/
theorem mono_of_invariant {step' : σ → ε → σ → Prop} (inv : σ → Prop)
    (keeps : ∀ s e t, inv s → step s e t → inv t)
    (sub : ∀ s e t, inv s → step s e t → step' s e t)
    {s u : σ} {es : List ε} (h : Run step s es u) (hs : inv s) : Run step' s es u := by
  induction h with
  | nil s => exact .nil s
  | cons head _ ih => exact .cons (sub _ _ _ hs head) (ih (keeps _ _ _ hs head))

/-- So it may on the place of the step in the run. -/
theorem mono_of_cuts {step' : σ → ε → σ → Prop} {s u : σ} {es : List ε} (h : Run step s es u)
    (sub : ∀ before e after t t', es = before ++ e :: after → Run step s before t →
      step t e t' → Run step t' after u → step' t e t') : Run step' s es u := by
  have hrest : ∀ rest before t, es = before ++ rest → Run step s before t → Run step t rest u →
      Run step' t rest u := by
    intro rest
    induction rest with
    | nil =>
      intro before t _ _ hrun
      rw [nil_iff] at hrun ⊢
      exact hrun
    | cons e rest ih =>
      intro before t hcut hbefore hrun
      obtain ⟨t', head, tail⟩ := cons_iff.mp hrun
      have hbefore' := hbefore.append (.single head)
      exact .cons (sub before e rest t t' hcut hbefore head tail)
        (ih (before ++ [e]) t' (by rw [hcut, List.append_cons]) hbefore' tail)
  exact hrest es [] s rfl (.nil s) h

/-- Simulation: when a view turns every step into the step its label stands for, or leaves the
state as it is where the label stands for none, it turns runs into runs. -/
theorem project {step' : σ' → ε' → σ' → Prop} (view : σ → σ') (label : ε → Option ε')
    (silent : ∀ s e t, step s e t → label e = none → view t = view s)
    (visible : ∀ s e t e', step s e t → label e = some e' → step' (view s) e' (view t))
    {s u : σ} {es : List ε} (h : Run step s es u) :
    Run step' (view s) (es.filterMap label) (view u) := by
  induction h with
  | nil s => exact .nil _
  | @cons s t u e es head _ ih =>
    cases hlabel : label e with
    | none =>
      rw [List.filterMap_cons_none hlabel, ← silent _ _ _ head hlabel]
      exact ih
    | some e' =>
      rw [List.filterMap_cons_some hlabel]
      exact .cons (visible _ _ _ _ head hlabel) ih

/-- Labels that all have a property are those of a run restricted to it. -/
theorem throughout_label_iff {property : ε → Prop} {s u : σ} {es : List ε} :
    Run (Throughout step fun _ e _ ↦ property e) s es u ↔
      Run step s es u ∧ ∀ e ∈ es, property e := by
  constructor
  · intro h
    induction h with
    | nil s => exact ⟨.nil s, by simp⟩
    | cons head _ ih => exact ⟨.cons head.1 ih.1, List.forall_mem_cons.mpr ⟨head.2, ih.2⟩⟩
  · rintro ⟨h, hlabels⟩
    induction h with
    | nil s => exact .nil s
    | cons head _ ih =>
      obtain ⟨hfirst, hrest⟩ := List.forall_mem_cons.mp hlabels
      exact .cons ⟨head, hfirst⟩ (ih hrest)

/-- What every step with a label of some kind keeps is kept by a run with such labels only. -/
theorem invariant_of_labels (property : ε → Prop) (inv : σ → Prop)
    (keeps : ∀ s e t, property e → inv s → step s e t → inv t) {s u : σ} {es : List ε}
    (h : Run step s es u) (hlabels : ∀ e ∈ es, property e) (hs : inv s) : inv u := by
  have hrun := throughout_label_iff.mpr ⟨h, hlabels⟩
  exact hrun.invariant inv (fun s e t hinv hstep ↦ keeps s e t hstep.2 hinv hstep.1) hs

/-- A view of the state that no step with a label of some kind changes is the same at both ends of a
run with such labels only. -/
theorem view_of_labels (property : ε → Prop) (view : σ → σ')
    (keeps : ∀ s e t, property e → step s e t → view t = view s) {s u : σ} {es : List ε}
    (h : Run step s es u) (hlabels : ∀ e ∈ es, property e) : view u = view s := by
  refine h.invariant_of_labels property (fun t ↦ view t = view s) ?_ hlabels rfl
  intro t e t' he hsame hstep
  rw [keeps t e t' he hstep, hsame]

/-- When every step does to a view of the state what a function of its label does, a run does what
the function does over its history. -/
theorem foldl {f : σ' → ε → σ'} (view : σ → σ')
    (across : ∀ s e t, step s e t → view t = f (view s) e) {s u : σ} {es : List ε}
    (h : Run step s es u) : view u = es.foldl f (view s) := by
  induction h with
  | nil => rfl
  | cons head _ ih => rw [ih, across _ _ _ head, List.foldl_cons]

/-- A number that a step raises by one when its label has a property, and keeps when not, counts the
labels with the property. -/
theorem countP (p : ε → Bool) (value : σ → ℤ)
    (across : ∀ s e t, step s e t → value t = value s + if p e then 1 else 0) {s u : σ}
    {es : List ε} (h : Run step s es u) : value u = value s + es.countP p := by
  induction h with
  | nil => simp
  | cons head _ ih =>
    rw [ih, across _ _ _ head, List.countP_cons]
    push_cast
    ring

/-- What every step balances against what its label gives and takes, a run balances against the sums
over its history. -/
theorem balance (value : σ → ℕ) (gain loss : ε → ℕ)
    (across : ∀ s e t, step s e t → value t + loss e = value s + gain e) {s u : σ} {es : List ε}
    (h : Run step s es u) :
    value u + (es.map loss).sum = value s + (es.map gain).sum := by
  induction h with
  | nil => rfl
  | cons head _ ih =>
    have hfirst := across _ _ _ head
    rw [List.map_cons, List.map_cons, List.sum_cons, List.sum_cons]
    omega

end Run

/-- The run of a list of actions, for an `act` that says what an action does in a state if it is
possible. An impossible action is skipped. -/
def execute {α : Type*} (act : σ → α → Option (ε × σ)) (s : σ) : List α → List ε × σ
  | [] => ([], s)
  | a :: actions =>
    match act s a with
    | some (e, t) => (e :: (execute act t actions).1, (execute act t actions).2)
    | none => execute act s actions

theorem run_execute {α : Type*} {step : σ → ε → σ → Prop} {act : σ → α → Option (ε × σ)}
    (sound : ∀ s a e t, act s a = some (e, t) → step s e t) (s : σ) (actions : List α) :
    Run step s (execute act s actions).1 (execute act s actions).2 := by
  induction actions generalizing s with
  | nil => exact .nil s
  | cons a actions ih =>
    rw [execute]
    split
    · rename_i hact
      exact .cons (sound _ _ _ _ hact) (ih _)
    · exact ih s

/-- The actions whose step has a property; the others count as impossible. -/
def guarded {α : Type*} (act : σ → α → Option (ε × σ)) (property : σ → ε → σ → Prop)
    [∀ s e t, Decidable (property s e t)] (s : σ) (a : α) : Option (ε × σ) :=
  (act s a).filter fun result ↦ property s result.1 result.2

theorem run_guarded {α : Type*} {step property : σ → ε → σ → Prop}
    [∀ s e t, Decidable (property s e t)] {act : σ → α → Option (ε × σ)}
    (sound : ∀ s a e t, act s a = some (e, t) → step s e t) (s : σ) (actions : List α) :
    Run (Throughout step property) s (execute (guarded act property) s actions).1
      (execute (guarded act property) s actions).2 := by
  refine run_execute (fun s a e t h ↦ ?_) s actions
  obtain ⟨hact, hproperty⟩ := Option.filter_eq_some_iff.mp h
  exact ⟨sound s a e t hact, by simpa using hproperty⟩

/-! ### Histories -/

/-- Two cuts of one history are the same, or each label is on the other's far side. -/
theorem cut_cases {before before' after after' : List ε} {e e' : ε}
    (h : before ++ e :: after = before' ++ e' :: after') :
    (before = before' ∧ e = e' ∧ after = after') ∨ e' ∈ after ∨ e ∈ after' := by
  rcases List.append_eq_append_iff.mp h with ⟨between, -, hrest⟩ | ⟨between, -, hrest⟩
  · cases between with
    | nil =>
      obtain ⟨rfl, rfl⟩ := List.cons.inj hrest
      refine .inl ⟨List.append_cancel_right h, rfl, rfl⟩
    | cons first between =>
      obtain ⟨-, rfl⟩ := List.cons.inj hrest
      exact .inr (.inl (by simp))
  · cases between with
    | nil =>
      obtain ⟨rfl, rfl⟩ := List.cons.inj hrest
      refine .inl ⟨List.append_cancel_right h, rfl, rfl⟩
    | cons first between =>
      obtain ⟨-, rfl⟩ := List.cons.inj hrest
      exact .inr (.inr (by simp))

/-- A cut of what a view sees of a history comes from a cut of the history. -/
theorem cut_of_filterMap {view : ε → Option ε'} {es : List ε} {before after : List ε'} {e' : ε'}
    (h : es.filterMap view = before ++ e' :: after) :
    ∃ first e last, es = first ++ e :: last ∧ view e = some e' ∧
      first.filterMap view = before ∧ last.filterMap view = after := by
  obtain ⟨first, rest, rfl, hfirst, hrest⟩ := List.filterMap_eq_append_iff.mp h
  obtain ⟨skipped, e, last, rfl, hskipped, he, hlast⟩ := List.filterMap_eq_cons_iff.mp hrest
  refine ⟨first ++ skipped, e, last, by simp, he, ?_, hlast⟩
  rw [List.filterMap_append, hfirst, List.filterMap_eq_nil_iff.mpr hskipped, List.append_nil]

/-- What one view sees of a history, relabelled, is part of what another view sees. -/
theorem map_filterMap_sublist {α β : Type*} {f : ε → Option α} {g : ε → Option β} {h : α → β}
    {es : List ε} (hview : ∀ e ∈ es, ∀ x, f e = some x → g e = some (h x)) :
    ((es.filterMap f).map h).Sublist (es.filterMap g) := by
  induction es with
  | nil => exact .slnil
  | cons e es ih =>
    obtain ⟨hfirst, hrest⟩ := List.forall_mem_cons.mp hview
    cases hf : f e with
    | none =>
      rw [List.filterMap_cons_none hf]
      refine (ih hrest).trans ?_
      rw [List.filterMap_cons]
      split
      · exact .refl _
      · exact List.sublist_cons_self ..
    | some x =>
      rw [List.filterMap_cons_some hf, List.filterMap_cons_some (hfirst x hf), List.map_cons]
      exact (ih hrest).cons_cons _

end Relay.Foundations
