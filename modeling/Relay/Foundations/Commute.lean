import Relay.Foundations.Run
import Mathlib.Data.List.Pairwise

/-!
# Actions that commute

`executeAll` runs a list of actions that are always possible. Two actions commute when, from every
state, each answers the same before and after the other and both orders end in one state
(`Commute`). A list of actions that commute pairwise may be run in any order: the answers are the
same and so is the last state (`executeAll_perm`).
-/

set_option autoImplicit false
set_option relaxedAutoImplicit false

namespace Relay.Foundations

variable {σ ε α : Type*}

/-- What a list of actions does, for an `act` that says what an action answers and does. -/
abbrev executeAll (act : σ → α → ε × σ) (s : σ) (actions : List α) : List ε × σ :=
  execute (fun s a ↦ some (act s a)) s actions

theorem executeAll_cons (act : σ → α → ε × σ) (s : σ) (a : α) (actions : List α) :
    executeAll act s (a :: actions) =
      ((act s a).1 :: (executeAll act (act s a).2 actions).1,
        (executeAll act (act s a).2 actions).2) := rfl

/-- Neither action changes what the other answers, and their order does not matter. -/
structure Commute (act : σ → α → ε × σ) (a b : α) : Prop where
  first : ∀ s, (act (act s b).2 a).1 = (act s a).1
  second : ∀ s, (act (act s a).2 b).1 = (act s b).1
  state : ∀ s, (act (act s a).2 b).2 = (act (act s b).2 a).2

theorem Commute.symm {act : σ → α → ε × σ} {a b : α} (h : Commute act a b) : Commute act b a where
  first := h.second
  second := h.first
  state := fun s ↦ (h.state s).symm

/-- Actions that commute pairwise answer the same in every order and end in the same state. -/
theorem executeAll_perm {act : σ → α → ε × σ} {actions actions' : List α}
    (horder : actions.Perm actions') (hcommute : actions.Pairwise (Commute act)) (s : σ) :
    (executeAll act s actions).1.Perm (executeAll act s actions').1 ∧
      (executeAll act s actions).2 = (executeAll act s actions').2 := by
  induction horder generalizing s with
  | nil => exact ⟨.nil, rfl⟩
  | cons a _ ih =>
    obtain ⟨hanswers, hstate⟩ := ih (List.pairwise_cons.mp hcommute).2 (act s a).2
    rw [executeAll_cons, executeAll_cons]
    exact ⟨hanswers.cons _, hstate⟩
  | swap a b rest =>
    have hab : Commute act b a := (List.pairwise_cons.mp hcommute).1 a (List.mem_cons_self ..)
    simp only [executeAll_cons, hab.first s, hab.second s, hab.state s]
    exact ⟨.swap .., trivial⟩
  | trans hleft _ ihleft ihright =>
    obtain ⟨hanswers, hstate⟩ := ihleft hcommute s
    obtain ⟨hanswers', hstate'⟩ := ihright ((hleft.pairwise_iff fun h ↦ h.symm).mp hcommute) s
    exact ⟨hanswers.trans hanswers', hstate.trans hstate'⟩

end Relay.Foundations
