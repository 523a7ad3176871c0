/-
# Verdicts

Whether a bean with plain conditions takes part can be told from the beans alone,
round by round: a round has a verdict on the beans whose conditions look only for
beans with a verdict in the round before. No verdict is ever taken back
(`verdict_mono`), and the order of the beans does not matter (`verdict_perm`).
-/
import Inversion.Proofs.Lookup.Faithful

namespace Inversion

/-- What is known in `f` is known in `g`. -/
def Extends {α β : Type} (f g : α → Option β) : Prop :=
  ∀ a b, f a = some b → g a = some b

mutual
/-- What a plain condition comes to, if it is known how many beans its lookups find. -/
def Condition.foretell (properties : Properties) (count : Selector → Option Nat) :
    Condition → Option Bool
  | .property key value ifMissing =>
    some (propertyHolds (properties.get? key) value ifMissing)
  | .missingProperty key => some (!properties.contains key)
  | .beans expectation sel => (count sel).map expectation.met
  | .not c => do
    let b ← c.foretell properties count
    some !b
  | .all cs => foretellAll properties count cs
  | .any cs => foretellAny properties count cs
  | .probe _ => none
  | .context _ _ => none

def foretellAll (properties : Properties) (count : Selector → Option Nat) :
    List Condition → Option Bool
  | [] => some true
  | c :: cs => do
    if ← c.foretell properties count then foretellAll properties count cs else some false

def foretellAny (properties : Properties) (count : Selector → Option Nat) :
    List Condition → Option Bool
  | [] => some false
  | c :: cs => do
    if ← c.foretell properties count then some true else foretellAny properties count cs
end

section
variable {properties : Properties} {count count' : Selector → Option Nat}

mutual
theorem Condition.foretell_mono (h : Extends count count') :
    ∀ c : Condition, ∀ b, c.foretell properties count = some b →
      c.foretell properties count' = some b
  | .property key value ifMissing, _, hb => hb
  | .missingProperty key, _, hb => hb
  | .beans expectation sel, b, hb => by
    unfold Condition.foretell at hb ⊢
    obtain ⟨n, hn, hb⟩ := Option.map_eq_some_iff.mp hb
    rw [h sel n hn, ← hb]
    rfl
  | .not c, b, hb => by
    unfold Condition.foretell at hb ⊢
    obtain ⟨b', hb', hb⟩ := Option.bind_eq_some_iff.mp hb
    rw [Condition.foretell_mono h c b' hb']
    exact hb
  | .all cs, b, hb => by
    unfold Condition.foretell at hb ⊢
    exact foretellAll_mono h cs b hb
  | .any cs, b, hb => by
    unfold Condition.foretell at hb ⊢
    exact foretellAny_mono h cs b hb
  | .probe _, _, hb => by
    unfold Condition.foretell at hb
    cases hb
  | .context _ _, _, hb => by
    unfold Condition.foretell at hb
    cases hb

theorem foretellAll_mono (h : Extends count count') :
    ∀ cs : List Condition, ∀ b, foretellAll properties count cs = some b →
      foretellAll properties count' cs = some b
  | [], _, hb => hb
  | c :: cs, b, hb => by
    unfold foretellAll at hb ⊢
    obtain ⟨b', hb', hb⟩ := Option.bind_eq_some_iff.mp hb
    rw [Condition.foretell_mono h c b' hb']
    cases b' with
    | true => exact foretellAll_mono h cs b hb
    | false => exact hb

theorem foretellAny_mono (h : Extends count count') :
    ∀ cs : List Condition, ∀ b, foretellAny properties count cs = some b →
      foretellAny properties count' cs = some b
  | [], _, hb => hb
  | c :: cs, b, hb => by
    unfold foretellAny at hb ⊢
    obtain ⟨b', hb', hb⟩ := Option.bind_eq_some_iff.mp hb
    rw [Condition.foretell_mono h c b' hb']
    cases b' with
    | true => exact hb
    | false => exact foretellAny_mono h cs b hb
end

end

namespace Plan

variable {plan : Plan} {known known' : Bean → Option Bool} {sel : Selector}

/-- How many beans a selector finds, if all that could match have a verdict. -/
def tally (plan : Plan) (known : Bean → Option Bool) (sel : Selector) : Option Nat :=
  if plan.beans.all fun bean => !sel.mayMatch bean || (known bean).isSome then
    some (plan.beans.countP fun bean => known bean == some true && plan.answers sel bean)
  else none

theorem tally_eq_some {n : Nat} : plan.tally known sel = some n ↔
    (∀ bean ∈ plan.beans, sel.mayMatch bean → (known bean).isSome) ∧
      plan.beans.countP (fun bean => known bean == some true && plan.answers sel bean) = n := by
  unfold tally
  have hall : plan.beans.all (fun bean => !sel.mayMatch bean || (known bean).isSome) ↔
      ∀ bean ∈ plan.beans, sel.mayMatch bean → (known bean).isSome := by
    rw [List.all_eq_true]
    refine forall_congr' fun bean => forall_congr' fun _ => ?_
    cases sel.mayMatch bean <;> simp
  by_cases h : plan.beans.all fun bean => !sel.mayMatch bean || (known bean).isSome
  · rw [if_pos h, Option.some_inj, and_iff_right (hall.mp h)]
  · rw [if_neg h]
    refine ⟨fun hn => (by cases hn), fun hn => absurd (hall.mpr hn.1) h⟩

theorem tally_mono (h : Extends known known') : Extends (plan.tally known) (plan.tally known') := by
  intro sel n hn
  rw [tally_eq_some] at hn ⊢
  obtain ⟨hknown, hn⟩ := hn
  refine ⟨fun bean hbean hmay => ?_, ?_⟩
  · obtain ⟨v, hv⟩ := Option.isSome_iff_exists.mp (hknown bean hbean hmay)
    rw [h bean v hv]
    rfl
  · rw [← hn]
    refine List.countP_congr fun bean hbean => ?_
    by_cases ha : plan.answers sel bean
    · obtain ⟨v, hv⟩ :=
        Option.isSome_iff_exists.mp (hknown bean hbean (mayMatch_of_answers ha))
      rw [hv, h bean v hv]
    · simp [ha]

/-- The verdict on a bean in a round. -/
def verdict (plan : Plan) : Nat → Bean → Option Bool
  | 0, _ => none
  | k + 1, bean => do
    let holds ← foretellAll plan.properties (plan.tally (verdict plan k)) bean.conditions
    if holds then
      match plan.exportsOf bean with
      | .ok _ => some true
      | .error _ => none
    else some false

theorem verdict_eq_some {k : Nat} {bean : Bean} {v : Bool} : plan.verdict (k + 1) bean = some v ↔
    foretellAll plan.properties (plan.tally (plan.verdict k)) bean.conditions = some v ∧
      (v → ∃ exports, plan.exportsOf bean = .ok exports) := by
  rw [verdict]
  cases foretellAll plan.properties (plan.tally (plan.verdict k)) bean.conditions with
  | none => simp
  | some holds => cases holds <;> cases v <;> cases plan.exportsOf bean <;> simp

theorem verdict_succ : ∀ k, Extends (plan.verdict k) (plan.verdict (k + 1))
  | 0, bean, v, hv => by cases hv
  | k + 1, bean, v, hv => by
    rw [verdict] at hv ⊢
    obtain ⟨holds, hholds, hv⟩ := Option.bind_eq_some_iff.mp hv
    rw [foretellAll_mono (tally_mono (verdict_succ k)) _ holds hholds]
    exact hv

theorem verdict_mono {k k' : Nat} (h : k ≤ k') : Extends (plan.verdict k) (plan.verdict k') := by
  induction h with
  | refl => exact fun _ _ hv => hv
  | step _ ih => exact fun bean v hv => verdict_succ _ bean v (ih bean v hv)

theorem verdict_unique {k k' : Nat} {bean : Bean} {v v' : Bool} (h : plan.verdict k bean = some v)
    (h' : plan.verdict k' bean = some v') : v = v' := by
  have hv := verdict_mono (Nat.le_max_left k k') bean v h
  rw [verdict_mono (Nat.le_max_right k k') bean v' h'] at hv
  exact (Option.some.inj hv).symm

/-- The first round that has a verdict on a bean. -/
theorem exists_first_round {k : Nat} {bean : Bean} (h : (plan.verdict k bean).isSome) :
    ∃ j v, j < k ∧ plan.verdict j bean = none ∧ plan.verdict (j + 1) bean = some v := by
  induction k with
  | zero => cases h
  | succ k ih =>
    by_cases hk : (plan.verdict k bean).isSome
    · obtain ⟨j, v, hj, hnone, hv⟩ := ih hk
      exact ⟨j, v, Nat.lt_succ_of_lt hj, hnone, hv⟩
    · obtain ⟨v, hv⟩ := Option.isSome_iff_exists.mp h
      exact ⟨k, v, Nat.lt_succ_self k, by simpa using hk, hv⟩

/-! ### Other orders of registration -/

theorem tally_perm {beans : List Bean} (h : beans.Perm plan.beans) :
    { plan with beans }.tally known = plan.tally known := by
  funext sel
  unfold tally
  rw [h.all_eq, h.countP_eq]
  rfl

theorem verdict_perm {beans : List Bean} (h : beans.Perm plan.beans) :
    ∀ k, { plan with beans }.verdict k = plan.verdict k
  | 0 => rfl
  | k + 1 => by
    funext bean
    rw [verdict, verdict, verdict_perm h k, tally_perm h]
    rfl

end Plan
end Inversion
