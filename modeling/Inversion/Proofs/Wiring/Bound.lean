/-
# The nesting of wirings ends

`wireBeyond` is `wire` with any computation in the place where the bound of the
nesting is used up. With the standard injector a bound above the number of
creations still to come is never used up: every creation that begins makes one
less to come, and no lookup brings one back. So the two do the same, whatever
stands in that place (`wireBeyond_agrees`).
-/
import Inversion.Proofs.Wiring.Execution

namespace Inversion
namespace Plan

variable {plan : Plan} {wire wire' : Nat → Wiring Unit} {b n : Nat}

/-- `wire`, with `beyond` in the place where the bound is used up. -/
def wireBeyond (plan : Plan) (beyond : Nat → Wiring Unit) : Nat → Nat → Wiring Unit
  | 0, b => beyond b
  | n + 1, b => plan.hand (wireBeyond plan beyond n) b

/-! ### Creations still to come -/

theorem persists_unbuilt (n : Nat) : plan.Persists fun p => p.registry.unbuilt.card < n where
  note p e _ hp := hp
  begin p b hb hp := by
    refine (Finset.card_le_card (Registry.having_subset rfl fun c hc => ?_)).trans_lt hp
    rw [Progress.registry_setStatus, Registry.status_setStatus] at hc
    split at hc
    · rename_i h
      rw [h.1, hb]
      rfl
    · exact hc
  settle p b bean exports _ hb _ hp := by
    refine (Finset.card_le_card (Registry.having_subset rfl fun c hc => ?_)).trans_lt hp
    by_cases hcb : c = b
    · rw [hcb, hb]
      rfl
    · rwa [status_settle_of_ne b c bean exports p hcb] at hc
  discard p b hb hp := by
    refine (Finset.card_le_card (Registry.having_subset rfl fun c hc => ?_)).trans_lt hp
    by_cases hcb : c = b
    · rw [hcb, hb]
      rfl
    · rwa [status_discard_of_ne b c p plan hcb] at hc

/-- No wiring makes more creations to come. -/
theorem endures_unbuilt (n : Nat) :
    plan.Endures (fun a => a.registry.unbuilt.card < n) fun _ => True where
  progress a a' h ha := by rwa [Assembly.registry, h]
  note a e _ ha := ha
  handed a b _ ha := ha
  received a asker b _ ha := ha
  count a n ha := ha
  begin a b _ ha := by
    show (a.registry.setStatus b .creating).unbuilt.card < n
    rw [Registry.unbuilt_setStatus rfl]
    exact Finset.card_erase_le.trans_lt ha
  hold a b i _ ha := by
    show ((a.registry.setHeld b i).setStatus b .wired).unbuilt.card < n
    rw [Registry.unbuilt_setStatus rfl, Registry.unbuilt_setHeld]
    exact Finset.card_erase_le.trans_lt ha
  find sel a ha := by
    rw [after_ofResolving]
    refine ((find_keeps (persists_unbuilt n) sel).after ha).mono fun r p hp => ?_
    exact ⟨hp, fun _ _ _ _ => trivial⟩
  reach _ _ _ _ := trivial

/-! ### Wirings with the same bound -/

/-- The creation of a resolved bean has one creation less inside. -/
theorem create_agrees
    (hw : ∀ b, Agrees (fun a => a.registry.unbuilt.card < n) (wire b) (wire' b)) {bean : Bean}
    (hb : plan.beans[b]? = some bean) {a : Assembly} (hr : a.registry.status b = .resolved)
    (hn : a.registry.unbuilt.card < n + 1) :
    outcome (plan.create wire b) a = outcome (plan.create wire' b) a ∧
      After (plan.create wire b) a fun _ t => t.registry.unbuilt.card < n := by
  have h : plan.Endures (fun a => a.registry.unbuilt.card < n) fun _ => True := endures_unbuilt n
  have hlt : (a.setStatus b .creating).registry.unbuilt.card < n := by
    have := Moves.unbuilt_begin hr
    show (a.begin b).registry.unbuilt.card < n
    omega
  obtain ⟨he, hk⟩ := h.obtain_agrees (fun b _ => hw b) b bean _ hlt
  refine ⟨outcome_congr fun Q => ?_, ?_⟩
  · rw [after_create hb, after_create hb]
    unfold After
    rw [he]
  · rw [after_create hb]
    refine hk.mono fun r t ht => ?_
    cases r with
    | error cause => exact ht
    | ok i =>
      refine (h.initialise_keeps b bean i t ht).mono fun r x hx => ?_
      cases r with
      | error cause => exact hx
      | ok _ => exact h.hold x b i trivial hx

theorem hand_agrees (hstd : plan.injector = .standard)
    (hw : ∀ b, Agrees (fun a => a.registry.unbuilt.card < n) (wire b) (wire' b)) (b : Nat) :
    Agrees (fun a => a.registry.unbuilt.card < n + 1) (plan.hand wire b) (plan.hand wire' b) := by
  intro a ha
  cases hb : plan.beans[b]? with
  | none =>
    unfold hand
    rw [hb]
    exact ⟨rfl, ha⟩
  | some bean =>
    by_cases hr : a.registry.status b = .resolved
    · obtain ⟨he, hk⟩ := create_agrees hw hb
        (a := { a.note (.handed b) with stack := b :: a.stack }) hr ha
      refine ⟨outcome_congr fun Q => ?_, ?_⟩
      · rw [after_hand_standard hstd hb, after_hand_standard hstd hb, hr]
        unfold After
        rw [he]
      · rw [after_hand_standard hstd hb, hr]
        refine hk.mono fun r t ht => ?_
        have ht := Nat.lt_succ_of_lt ht
        cases r with
        | error cause => exact ht
        | ok _ =>
          show (t.keepDestroyer plan b).progress.registry.unbuilt.card < n + 1
          rwa [Assembly.progress_keepDestroyer]
    · refine ⟨outcome_congr fun Q => ?_, ?_⟩
      · rw [after_hand_standard hstd hb, after_hand_standard hstd hb]
        cases hs : a.registry.status b with
        | resolved => exact absurd hs hr
        | _ => rfl
      · rw [after_hand_standard hstd hb]
        cases hs : a.registry.status b with
        | resolved => exact absurd hs hr
        | _ => exact ha

theorem wireBeyond_agrees (hstd : plan.injector = .standard) (beyond : Nat → Wiring Unit) :
    ∀ n b, Agrees (fun a => a.registry.unbuilt.card < n) (plan.wireBeyond beyond n b)
      (plan.wire n b)
  | 0, _ => fun _ h => absurd h (Nat.not_lt_zero _)
  | n + 1, b => hand_agrees hstd (wireBeyond_agrees hstd beyond n) b

end Plan
end Inversion
