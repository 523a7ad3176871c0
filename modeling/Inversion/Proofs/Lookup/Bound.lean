/-
# The nesting of resolutions ends

The resolution of a bean calls itself by way of conditions and lookups, wherever their
selectors lead. `activate` is one such call, with any procedure in the place of the calls
inside. A call that passes its guard begins a fresh bean, and nothing makes a bean fresh
again. So with at most `n` fresh beans no more than `n` calls that passed their guards
stand inside one another, and from there on it does not matter what would come next
(`nested_agrees`).

Hence the bound of `resolve` is never used up, whatever stands in its place
(`resolveBeyond_agrees`), and `resolveBean` satisfies the recursion without a bound
(`resolveBean_eq_activate`).
-/
import Inversion.Proofs.Resolution

namespace Inversion

def Status.isFresh : Status → Bool
  | fresh => true
  | _ => false

/-- At most `n` beans are fresh. -/
def Progress.Fresh (n : Nat) (p : Progress) : Prop :=
  (p.registry.having Status.isFresh).card ≤ n

theorem Progress.fresh_length (p : Progress) : p.Fresh p.registry.marks.length :=
  Registry.card_having_le

namespace Plan

variable {plan : Plan} {resolve resolve' : Nat → Resolving Unit} {b n m : Nat} {bean : Bean}
  {p : Progress}

/-- The evaluation of a bean's conditions, with `resolve` for the resolutions inside. -/
def checkWith (plan : Plan) (resolve : Nat → Resolving Unit) (bean : Bean) : Resolving Bool :=
  (allHold plan (fun sel => (plan.findWith resolve sel).adapt Fault.lookup) bean.conditions).adapt
    (ResolveError.condition bean.id)

/-- One call of the resolution of a bean, with `resolve` for the resolutions inside. -/
def activate (plan : Plan) (resolve : Nat → Resolving Unit) (b : Nat) : Resolving Unit :=
  match plan.beans[b]? with
  | none => pure ()
  | some bean => do
    if (← get).registry.status b = .fresh then
      modify (·.setStatus b .resolving)
      reported b do
        let holds ← plan.checkWith resolve bean
        if holds then plan.accept b bean else plan.delete b

/-- `resolve`, with `beyond` for the calls that pass their guard where the bound is used up. -/
def resolveBeyond (plan : Plan) (beyond : Nat → Resolving Unit) : Nat → Nat → Resolving Unit
  | 0, b => do if (← get).registry.status b = .fresh then beyond b
  | n + 1, b => plan.activate (resolveBeyond plan beyond n) b

theorem resolve_succ (n b : Nat) : plan.resolve (n + 1) b = plan.activate (plan.resolve n) b :=
  rfl

/-! ### Fresh beans -/

theorem mem_fresh : b ∈ p.registry.having Status.isFresh ↔ p.registry.status b = .fresh := by
  rw [Registry.mem_having rfl]
  cases p.registry.status b <;> simp [Status.isFresh]

theorem having_settle_subset (exports : List TypeName) :
    (settle b bean exports p).registry.having Status.isFresh ⊆
      p.registry.having Status.isFresh := by
  refine Registry.having_subset rfl fun c hc => ?_
  by_cases hcb : c = b
  · subst hcb
    have hlt : c < (settle c bean exports p).registry.marks.length :=
      Registry.lt_length_of_status fun hd => by rw [hd] at hc; cases hc
    rw [status_settle_self c bean exports p (length_settle c bean exports p ▸ hlt)] at hc
    cases hc
  · rwa [status_settle_of_ne b c bean exports p hcb] at hc

theorem having_discard_subset :
    (plan.discard b p).registry.having Status.isFresh ⊆ p.registry.having Status.isFresh := by
  refine Registry.having_subset rfl fun c hc => ?_
  by_cases hcb : c = b
  · subst hcb
    have hlt : c < (plan.discard c p).registry.marks.length :=
      Registry.lt_length_of_status fun hd => by rw [hd] at hc; cases hc
    rw [status_discard_self c p plan (length_discard c p plan ▸ hlt)] at hc
    cases hc
  · rwa [status_discard_of_ne b c p plan hcb] at hc

theorem fresh_settle (h : p.Fresh n) (exports : List TypeName) :
    (settle b bean exports p).Fresh n :=
  (Finset.card_le_card (having_settle_subset exports)).trans h

theorem fresh_discard (h : p.Fresh n) : (plan.discard b p).Fresh n :=
  (Finset.card_le_card having_discard_subset).trans h

theorem fresh_begin (h : p.Fresh (n + 1)) (hb : p.registry.status b = .fresh) :
    (p.setStatus b .resolving).Fresh n := by
  have hone := Finset.card_erase_of_mem (mem_fresh.mpr hb)
  unfold Progress.Fresh at h ⊢
  rw [Progress.registry_setStatus, Registry.having_setStatus rfl rfl]
  omega

theorem status_ne_of_fresh_zero (h : p.Fresh 0) : p.registry.status b ≠ .fresh := by
  intro hb
  have hin := mem_fresh.mpr hb
  rw [Finset.card_eq_zero.mp (Nat.le_zero.mp h)] at hin
  exact Finset.notMem_empty b hin

/-! ### Resolutions that agree -/

section
variable {J : Progress → Prop} {sel : Selector}
  (hnote : ∀ p e, e.IsRemark → J p → J (p.note e))
  (h : ∀ b, Agrees J (resolve b) (resolve' b))
include hnote h

theorem scan_agrees : ∀ bs : List Nat, Agrees J (plan.scan resolve sel bs) (plan.scan resolve' sel bs)
  | [] => agrees_pure []
  | b :: bs => by
    have ih := scan_agrees bs
    rw [scan, scan]
    refine agrees_get_bind fun p hp => ?_
    split
    · exact ((agrees_modify fun q hq => hnote q _ (by trivial) hq).bind fun _ => ih) p hp
    · have hrest : Agrees J (do
            let r := (← get).registry
            let found ← plan.scan resolve sel bs
            pure (if r.status b ≠ .deleted ∧ plan.selects r sel b then b :: found else found))
          (do
            let r := (← get).registry
            let found ← plan.scan resolve' sel bs
            pure (if r.status b ≠ .deleted ∧ plan.selects r sel b then b :: found else found)) :=
        agrees_get_bind fun q hq => (ih.bind fun _ => agrees_pure _) q hq
      exact ((h b).bind fun _ => hrest) p hp

theorem findWith_agrees : Agrees J (plan.findWith resolve sel) (plan.findWith resolve' sel) := by
  refine agrees_get_bind fun p hp => ?_
  refine ((scan_agrees hnote h _).bind fun found => ?_) p hp
  exact (agrees_modify fun q hq => hnote q _ (by trivial) hq).bind fun _ => agrees_pure found

theorem checkWith_agrees (bean : Bean) :
    Agrees J (plan.checkWith resolve bean) (plan.checkWith resolve' bean) :=
  (allHold_agrees ⟨fun p e he hp => hnote p e he.isRemark hp,
    fun _ => (findWith_agrees hnote h).adapt _⟩ bean.conditions).adapt _

end

theorem Agrees.reported {J : Progress → Prop} {x y : Resolving Unit} (h : Agrees J x y)
    (hnote : ∀ p e, J p → J (p.note (.unresolved b e))) :
    Agrees J (Plan.reported b x) (Plan.reported b y) := by
  refine (agrees_observe h).bind fun r => ?_
  cases r with
  | ok _ => exact agrees_pure _
  | error e => exact (agrees_modify fun p hp => hnote p e hp).bind fun _ => agrees_throw e

theorem accept_keeps {J : Progress → Prop} (hwalked : ∀ p, J p → J (p.note (.walked b)))
    (hsettle : ∀ p exports, J p → J (settle b bean exports p)) : Keeps J (plan.accept b bean) := by
  have hexport : Keeps J (accept.liftExcept (plan.exportsOf bean) >>= fun exports =>
      modify (settle b bean exports)) := by
    cases plan.exportsOf bean with
    | error e => exact fun p hp => hp
    | ok exports => exact carries_modify fun p hp => hsettle p exports hp
  unfold accept
  cases bean.composite with
  | false => exact hexport
  | true => exact Carries.bind (carries_modify hwalked) fun _ => hexport

/-- What is left of a call that has passed its guard. -/
theorem after_activate (hbean : plan.beans[b]? = some bean) (hb : p.registry.status b = .fresh)
    {Q : Except ResolveError Unit → Progress → Prop} :
    After (plan.activate resolve b) p Q ↔
      After (reported b (plan.checkWith resolve bean >>= fun holds =>
        if holds then plan.accept b bean else plan.delete b)) (p.setStatus b .resolving) Q := by
  unfold activate
  simp only [hbean, after_bind, after_get, continues_ok, hb, ↓reduceIte, after_modify]

theorem outcome_activate_of_begun (hb : p.registry.status b ≠ .fresh) :
    outcome (plan.activate resolve b) p = (.ok (), p) := by
  unfold activate
  cases plan.beans[b]? with
  | none => rfl
  | some bean =>
    refine outcome_congr (y := pure ()) fun Q => ?_
    rw [after_bind, after_get, continues_ok, if_neg hb]

/-- A call that passes its guard has one fresh bean less inside. -/
theorem activate_agrees (h : ∀ b, Agrees (Progress.Fresh n) (resolve b) (resolve' b)) (b : Nat) :
    Agrees (Progress.Fresh (n + 1)) (plan.activate resolve b) (plan.activate resolve' b) := by
  intro p hp
  cases hbean : plan.beans[b]? with
  | none =>
    unfold activate
    rw [hbean]
    exact agrees_pure () p hp
  | some bean =>
    by_cases hb : p.registry.status b = .fresh
    · have hcheck : Agrees (Progress.Fresh n) (plan.checkWith resolve bean)
          (plan.checkWith resolve' bean) := checkWith_agrees (fun _ _ _ hq => hq) h bean
      have hdone : ∀ holds : Bool, Keeps (Progress.Fresh n)
          (if holds then plan.accept b bean else plan.delete b) := by
        intro holds
        cases holds with
        | false => exact carries_modify fun q hq => fresh_discard hq
        | true => exact accept_keeps (fun _ hq => hq) fun _ exports hq => fresh_settle hq exports
      have hcall := Agrees.reported (b := b) (hcheck.bind fun holds => (hdone holds).agrees)
        fun _ _ hq => hq
      obtain ⟨he, hk⟩ := hcall (p.setStatus b .resolving) (fresh_begin hp hb)
      refine ⟨outcome_congr fun Q => ?_, ?_⟩
      · rw [after_activate hbean hb, after_activate hbean hb]
        unfold After
        rw [he]
      · rw [after_activate hbean hb]
        exact hk.mono fun _ q hq => Nat.le_succ_of_le hq
    · unfold After
      rw [outcome_activate_of_begun hb, outcome_activate_of_begun hb]
      exact ⟨rfl, hp⟩

/-- With at most `n` fresh beans all ways to resolve agree that go on with `activate` for `n`
calls inside one another, and then pass over the beans that are not fresh. -/
theorem nested_agrees {f g : Nat → Nat → Resolving Unit}
    (hf : ∀ n b, f (n + 1) b = plan.activate (f n) b) (hg : ∀ n b, g (n + 1) b = plan.activate (g n) b)
    (hf₀ : ∀ b p, p.registry.status b ≠ .fresh → outcome (f 0 b) p = (.ok (), p))
    (hg₀ : ∀ b p, p.registry.status b ≠ .fresh → outcome (g 0 b) p = (.ok (), p)) :
    ∀ n b, Agrees (Progress.Fresh n) (f n b) (g n b)
  | 0, b => fun p hp => by
    have hb : p.registry.status b ≠ .fresh := status_ne_of_fresh_zero hp
    unfold After
    rw [hf₀ b p hb, hg₀ b p hb]
    exact ⟨rfl, hp⟩
  | n + 1, b => by
    rw [hf, hg]
    exact activate_agrees (nested_agrees hf hg hf₀ hg₀ n) b

theorem outcome_resolve_of_begun (h : p.registry.status b ≠ .fresh) (n : Nat) :
    outcome (plan.resolve n b) p = (.ok (), p) :=
  outcome_congr (y := pure ()) fun _ => resolve_of_begun h n

/-- What stands where the bound is used up is never called. -/
theorem resolveBeyond_agrees (beyond : Nat → Resolving Unit) :
    ∀ n b, Agrees (Progress.Fresh n) (plan.resolveBeyond beyond n b) (plan.resolve n b) := by
  refine nested_agrees (fun _ _ => rfl) resolve_succ (fun b p hb => ?_)
    fun b p hb => outcome_resolve_of_begun hb 0
  unfold resolveBeyond
  refine outcome_congr (y := pure ()) fun Q => ?_
  rw [after_bind, after_get, continues_ok, if_neg hb]

/-- A greater bound makes no difference. -/
theorem resolve_agrees (k : Nat) :
    ∀ n b, Agrees (Progress.Fresh n) (plan.resolve n b) (plan.resolve (n + k) b) :=
  nested_agrees (g := fun n => plan.resolve (n + k)) resolve_succ
    (fun n b => congrArg (plan.resolve · b) (Nat.add_right_comm n 1 k))
    (fun _ _ hb => outcome_resolve_of_begun hb 0) fun _ _ hb => outcome_resolve_of_begun hb _

section
variable (h : p.registry.marks.length ≤ plan.beans.length)
include h

theorem fresh_of_length : p.Fresh plan.beans.length :=
  (Progress.fresh_length p).trans h

/-- The recursion of resolutions, without a bound. -/
theorem resolveBean_eq_activate (b : Nat) :
    outcome (plan.resolveBean b) p = outcome (plan.activate plan.resolveBean b) p :=
  (resolve_agrees 1 plan.beans.length b p (fresh_of_length h)).1

theorem resolveBeyond_eq_resolveBean (beyond : Nat → Resolving Unit) (b : Nat) :
    outcome (plan.resolveBeyond beyond plan.beans.length b) p = outcome (plan.resolveBean b) p :=
  (resolveBeyond_agrees beyond plan.beans.length b p (fresh_of_length h)).1

theorem findWith_resolveBeyond (beyond : Nat → Resolving Unit) (sel : Selector) :
    outcome (plan.findWith (plan.resolveBeyond beyond plan.beans.length) sel) p =
      outcome (plan.find sel) p :=
  (findWith_agrees (fun _ _ _ hp => hp) (resolveBeyond_agrees beyond plan.beans.length) p
    (fresh_of_length h)).1

end

end Plan
end Inversion
