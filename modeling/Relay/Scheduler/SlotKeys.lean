import Relay.Scheduler.Operations

/-!
# Slot keys

The key `schedule:<name>@<slot>` determines the name and the slot, whatever characters the name has:
the text of a time contains no `@`, so the slot is what follows the last `@` (`slotKey_inj`). So the
keys of one schedule can be told from those of all others (`IsSlotKey`). What is used of the
rendering of times is `IsTimeText`; `exactSeconds` is such a rendering.
-/

set_option autoImplicit false
set_option relaxedAutoImplicit false

namespace Relay.Scheduler

open Foundations

/-- The text of a time determines the time, and contains no `@`. -/
structure IsTimeText (timeText : ℚ → String) : Prop where
  injective : Function.Injective timeText
  noAt : ∀ time, '@' ∉ (timeText time).toList

theorem slotKey_toList (timeText : ℚ → String) (name : String) (slot : ℚ) :
    (slotKey timeText name slot).toList =
      "schedule:".toList ++ (name.toList ++ '@' :: (timeText slot).toList) := by
  simp [slotKey]

/-- A slot key determines the name, and the text of the slot. -/
theorem slotKey_cut {timeText : ℚ → String} (noAt : ∀ time, '@' ∉ (timeText time).toList)
    {name name' : String} {slot slot' : ℚ}
    (h : slotKey timeText name slot = slotKey timeText name' slot') :
    name = name' ∧ timeText slot = timeText slot' := by
  have hlist := congrArg String.toList h
  rw [slotKey_toList, slotKey_toList] at hlist
  rcases cut_cases (List.append_cancel_left hlist) with ⟨hname, -, htext⟩ | hmem | hmem
  · exact ⟨String.toList_inj.mp hname, String.toList_inj.mp htext⟩
  · exact absurd hmem (noAt slot)
  · exact absurd hmem (noAt slot')

theorem slotKey_inj {timeText : ℚ → String} (htext : IsTimeText timeText) {name name' : String}
    {slot slot' : ℚ} : slotKey timeText name slot = slotKey timeText name' slot' ↔
      name = name' ∧ slot = slot' := by
  constructor
  · intro h
    obtain ⟨hname, hslot⟩ := slotKey_cut htext.noAt h
    exact ⟨hname, htext.injective hslot⟩
  · rintro ⟨rfl, rfl⟩
    rfl

/-! ### The keys of one schedule -/

/-- What stands before the text of the slot in the keys of a schedule. -/
def slotStem (name : String) : List Char := "schedule:".toList ++ (name.toList ++ ['@'])

/-- The key is one of the schedule with a name: after the stem it has no `@`. -/
def IsSlotKey (name key : String) : Prop :=
  slotStem name <+: key.toList ∧ '@' ∉ key.toList.drop (slotStem name).length

instance (name key : String) : Decidable (IsSlotKey name key) :=
  inferInstanceAs (Decidable (_ <+: _ ∧ _))

theorem slotStem_append (name : String) (rest : List Char) :
    slotStem name ++ rest = "schedule:".toList ++ (name.toList ++ '@' :: rest) := by
  unfold slotStem
  -- as a literal it would be computed by the rewriting
  generalize "schedule:".toList = scheme
  simp

/-- A slot key is one of its own schedule and of no other. -/
theorem isSlotKey_slotKey {timeText : ℚ → String} (noAt : ∀ time, '@' ∉ (timeText time).toList)
    {name name' : String} {slot : ℚ} :
    IsSlotKey name (slotKey timeText name' slot) ↔ name' = name := by
  constructor
  · rintro ⟨⟨rest, hrest⟩, hfree⟩
    rw [← hrest, List.drop_left] at hfree
    rw [slotKey_toList, slotStem_append] at hrest
    rcases cut_cases (List.append_cancel_left hrest) with ⟨hname, -, -⟩ | hmem | hmem
    · exact (String.toList_inj.mp hname).symm
    · exact absurd hmem hfree
    · exact absurd hmem (noAt slot)
  · rintro rfl
    rw [IsSlotKey, slotKey_toList, ← slotStem_append, List.drop_left]
    exact ⟨List.prefix_append _ _, noAt slot⟩

/-! ### A rendering of times -/

/-- A whole number of seconds as Python writes a float, and any other time as a fraction. -/
def exactSeconds (time : ℚ) : String :=
  toString time.num ++ if time.den = 1 then ".0" else "/" ++ toString time.den

theorem isDigit_of_mem_repr {n : ℕ} {c : Char} (h : c ∈ n.repr.toList) : c.isDigit := by
  rw [Nat.toList_repr] at h
  exact Nat.isDigit_of_mem_toDigits (by decide) (by decide) h

theorem natRepr_inj {m n : ℕ} (h : m.repr.toList = n.repr.toList) : m = n := by
  rw [Nat.toList_repr, Nat.toList_repr] at h
  have hdigits := congrArg (Nat.ofDigitChars 10 · 0) h
  simpa only [Nat.ofDigitChars_ten_toDigits] using hdigits

theorem mem_intRepr {n : ℤ} {c : Char} (h : c ∈ n.repr.toList) : c = '-' ∨ c.isDigit := by
  cases n with
  | ofNat m => exact .inr (isDigit_of_mem_repr h)
  | negSucc m =>
    simp only [Int.repr, String.toList_append, List.mem_append] at h
    rcases h with h | h
    · exact .inl (by simpa using h)
    · exact .inr (isDigit_of_mem_repr h)

theorem intRepr_inj {m n : ℤ} (h : m.repr.toList = n.repr.toList) : m = n := by
  have hminus : ∀ k : ℕ, '-' ∉ k.repr.toList := fun k hk ↦ by simpa using isDigit_of_mem_repr hk
  have hsign : ∀ k : ℕ, '-' ∈ (Int.negSucc k).repr.toList := fun k ↦ by simp [Int.repr]
  cases m with
  | ofNat m =>
    cases n with
    | ofNat n => rw [natRepr_inj h]
    | negSucc n => exact absurd (h ▸ hsign n) (hminus m)
  | negSucc m =>
    cases n with
    | ofNat n => exact absurd (h ▸ hsign m) (hminus n)
    | negSucc n =>
      simp only [Int.repr, String.toList_append] at h
      have hsucc := natRepr_inj (List.append_cancel_left h)
      rw [Nat.succ.inj hsucc]

/-- What stands between the numerator and the rest of the text of a time. -/
def separator (time : ℚ) : Char := if time.den = 1 then '.' else '/'

/-- The digits of the text of a time after the separator. -/
def fraction (time : ℚ) : List Char := if time.den = 1 then ['0'] else time.den.repr.toList

theorem exactSeconds_toList (time : ℚ) :
    (exactSeconds time).toList = time.num.repr.toList ++ separator time :: fraction time := by
  have hnum : toString time.num = time.num.repr := rfl
  have hden : toString time.den = time.den.repr := rfl
  by_cases h : time.den = 1 <;> simp [exactSeconds, separator, fraction, h, hnum, hden]

theorem isDigit_of_mem_fraction {time : ℚ} {c : Char} (h : c ∈ fraction time) : c.isDigit := by
  unfold fraction at h
  split_ifs at h with hden
  · rw [List.mem_singleton.mp h]
    rfl
  · exact isDigit_of_mem_repr h

theorem not_isDigit_separator (time : ℚ) : ¬ (separator time).isDigit := by
  unfold separator
  split_ifs <;> decide

theorem isTimeText_exactSeconds : IsTimeText exactSeconds where
  injective := by
    intro a b h
    have hlist := congrArg String.toList h
    rw [exactSeconds_toList, exactSeconds_toList] at hlist
    rcases cut_cases hlist with ⟨hnum, hseparator, hfraction⟩ | hmem | hmem
    · refine Rat.ext (intRepr_inj hnum) ?_
      unfold separator at hseparator
      unfold fraction at hfraction
      by_cases ha : a.den = 1 <;> by_cases hb : b.den = 1 <;>
        simp only [ha, hb, if_true, if_false] at hseparator hfraction ⊢
      · cases hseparator
      · cases hseparator
      · exact natRepr_inj hfraction
    · exact absurd (isDigit_of_mem_fraction hmem) (not_isDigit_separator b)
    · exact absurd (isDigit_of_mem_fraction hmem) (not_isDigit_separator a)
  noAt := by
    intro time h
    rw [exactSeconds_toList] at h
    rcases List.mem_append.mp h with h | h
    · rcases mem_intRepr h with h | h <;> simp at h
    · rcases List.mem_cons.mp h with h | h
      · unfold separator at h
        split_ifs at h <;> simp at h
      · simpa using isDigit_of_mem_fraction h

end Relay.Scheduler
