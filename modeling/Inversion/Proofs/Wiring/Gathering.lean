/-
# Gathering arguments

The arguments of a constructor or a configuration are gathered by lookups, by
receiving the beans found, and by notes. `Gathers` says that these keep a property
of the assembly, and then all arguments keep it, those included whose failure is a
value (`gather_agrees`). It speaks of two ways to wire a bean that agree under the
property; most often they are the same.

Once every bean has begun, a lookup resolves nothing any more: it only reads the
registry (`find_of_calm`).
-/
import Inversion.Proofs.Resolution
import Inversion.Wiring

namespace Inversion

/-! ### Lookups when nothing is left to resolve -/

/-- No bean is fresh. -/
def Registry.Calm (r : Registry) : Prop :=
  ∀ b, r.status b ≠ .fresh

/-- Only remarks have been added. -/
inductive Progress.Remarked (p : Progress) : Progress → Prop
  | refl : Remarked p p
  | note {q : Progress} {e : Event} : Remarked p q → e.IsRemark → Remarked p (q.note e)

namespace Progress

variable {p q t : Progress}

theorem Remarked.trans (h : p.Remarked q) (h' : q.Remarked t) : p.Remarked t := by
  induction h' with
  | refl => exact h
  | note _ he ih => exact ih.note he

theorem Remarked.registry (h : p.Remarked q) : q.registry = p.registry := by
  induction h with
  | refl => rfl
  | note _ _ ih => exact ih

end Progress

namespace Plan

variable {plan : Plan}

/-- A scan of beans whose resolution does nothing. -/
theorem scan_of_calm {resolve : Nat → Resolving Unit} {sel : Selector} {p : Progress} :
    ∀ (bs : List Nat),
      (∀ q : Progress, q.registry = p.registry → ∀ b ∈ bs,
        ∀ Q : Except ResolveError Unit → Progress → Prop, Q (.ok ()) q → After (resolve b) q Q) →
      ∀ q : Progress, q.registry = p.registry →
        After (plan.scan resolve sel bs) q fun r t => q.Remarked t ∧ r = .ok (bs.filter fun b =>
          p.registry.status b ≠ .resolving ∧ p.registry.status b ≠ .deleted ∧
            plan.selects p.registry sel b)
  | [], _, q, _ => ⟨.refl, rfl⟩
  | b :: bs, h, q, hq => by
    have hrest := fun q hq c hc => h q hq c (List.mem_cons_of_mem b hc)
    rw [scan, after_bind, after_get, continues_ok, hq]
    split
    · rename_i hr
      rw [after_bind, after_modify, continues_ok]
      refine (scan_of_calm bs hrest (q.note (.skipped (plan.idOf b) sel)) hq).mono fun r t hrt => ?_
      obtain ⟨ht, hrt⟩ := hrt
      refine ⟨(Progress.Remarked.refl.note (by trivial)).trans ht, ?_⟩
      rw [List.filter_cons, if_neg (by simp [hr]), hrt]
    · rename_i hr
      rw [after_bind]
      refine h q hq b List.mem_cons_self _ ?_
      rw [continues_ok, after_bind, after_get, continues_ok, after_bind]
      refine (scan_of_calm bs hrest q hq).mono fun r t hrt => ?_
      obtain ⟨ht, hrt⟩ := hrt
      rw [hrt, continues_ok, after_pure, hq, List.filter_cons]
      refine ⟨ht, ?_⟩
      by_cases hs : p.registry.status b ≠ .deleted ∧ plan.selects p.registry sel b
      · rw [if_pos hs, if_pos (by simpa [hr] using hs)]
      · rw [if_neg hs, if_neg (by simpa [hr] using hs)]

/-- The answer of a lookup when nothing is left to resolve. -/
def present (plan : Plan) (r : Registry) (sel : Selector) : List Nat :=
  (plan.candidates r sel).filter fun b =>
    r.status b ≠ .resolving ∧ r.status b ≠ .deleted ∧ plan.selects r sel b

theorem find_of_calm {p : Progress} (h : p.registry.Calm) (sel : Selector) :
    After (plan.find sel) p fun r q => p.Remarked q ∧ r = .ok (plan.present p.registry sel) := by
  have hscan : After (plan.scan plan.resolveBean sel (plan.candidates p.registry sel)) p _ :=
    scan_of_calm _ (fun q hq b _ Q hQ => (resolve_of_begun (hq ▸ h b) _).mpr hQ) p rfl
  show After (get >>= _) p _
  rw [after_bind, after_get, continues_ok, after_bind]
  refine hscan.mono fun r t ⟨ht, hr⟩ => ?_
  rw [hr, continues_ok, after_bind, after_modify, continues_ok, after_pure]
  exact ⟨ht.note (by trivial), rfl⟩

/-- Then a lookup notes itself and the beans that it passes over, and does nothing else. -/
theorem find_keeps_of_calm {P : Progress → Prop} {sel : Selector}
    (hskip : ∀ p id, P p → P (p.note (.skipped id sel)))
    (hlook : ∀ p away found, P p → P (p.note (.lookedUp sel away found))) :
    Keeps (fun p => p.registry.Calm ∧ P p) (plan.find sel) := by
  refine findWith_carries (fun p id hp => ⟨hp.1, hskip p id hp.2⟩)
    (fun p away found hp => ⟨hp.1, hlook p away found hp.2⟩) fun b => Keeps.of_after fun p hp => ?_
  unfold resolveBean
  rw [resolve_of_begun (hp.1 b)]
  exact hp

theorem lt_of_mem_present {r : Registry} {sel : Selector} {b : Nat} (h : b ∈ plan.present r sel) :
    b < plan.beans.length := by
  have hb := (List.mem_filter.mp (List.mem_filter.mp h).1).2
  refine Nat.lt_of_not_le fun hle => ?_
  simp [mayMatch, List.getElem?_eq_none hle] at hb

end Plan

/-! ### Parts of a wiring -/

/-- The failure of a result. -/
def failure? {ε α : Type} : Except ε α → Option ε
  | .ok _ => none
  | .error e => some e

section
variable {a : Assembly} {α : Type}

@[simp] theorem after_ofExcept (x : Except WireError α) {Q : Except WireError α → Assembly → Prop} :
    After (Wiring.ofExcept x) a Q ↔ Q x a := by
  cases x <;> rfl

@[simp] theorem after_ofResolving (x : Resolving α) {Q : Except WireError α → Assembly → Prop} :
    After (Wiring.ofResolving x) a Q ↔
      After x a.progress fun r p => Q (r.mapError .resolve) { a with progress := p } := by
  show After (Wiring.ofExcept _) _ Q ↔ _
  rw [after_ofExcept]
  rfl

theorem outcome_attempt (x : Wiring Value) :
    outcome (Wiring.attempt x) a = (.ok (match (outcome x a).1 with
      | .ok v => .success v
      | .error e => .failure e), (outcome x a).2) := by
  unfold Wiring.attempt
  rw [outcome_bind, show outcome (observe x) a = (.ok (outcome x a).1, (outcome x a).2) from rfl]
  rcases outcome x a with ⟨_ | _, t⟩ <;> rfl

@[simp] theorem after_attempt (x : Wiring Value) {Q : Except WireError Value → Assembly → Prop} :
    After (Wiring.attempt x) a Q ↔
      After x a fun r t => Q (.ok (match r with
        | .ok v => .success v
        | .error e => .failure e)) t := by
  unfold After
  rw [outcome_attempt]

theorem outcome_noting (event : Option WireError → Option Event) (x : Wiring α) :
    outcome (Wiring.noting event x) a =
      ((outcome x a).1, (outcome x a).2.noteAny (event (failure? (outcome x a).1))) := by
  unfold Wiring.noting
  rw [outcome_bind]
  show outcome (match outcome x a with
    | (.ok v, a) => _
    | (.error cause, a) => _) a = _
  rcases outcome x a with ⟨_ | _, t⟩ <;> rfl

@[simp] theorem after_noting (event : Option WireError → Option Event) (x : Wiring α)
    {Q : Except WireError α → Assembly → Prop} :
    After (Wiring.noting event x) a Q ↔
      After x a fun r t => Q r (t.noteAny (event (failure? r))) := by
  unfold After
  rw [outcome_noting]

theorem Agrees.noting {P : Assembly → Prop} {x y : Wiring α} (h : Agrees P x y)
    {event : Option WireError → Option Event}
    (hnote : ∀ a failure, P a → P (a.noteAny (event failure))) :
    Agrees P (Wiring.noting event x) (Wiring.noting event y) := by
  intro a ha
  obtain ⟨he, hk⟩ := h a ha
  rw [outcome_noting, outcome_noting, he, after_noting]
  exact ⟨rfl, hk.mono fun _ t ht => hnote t _ ht⟩

end

namespace Plan

variable {plan : Plan}

theorem mem_of_single {t : TypeName} {bs : List Nat} {b : Nat} (h : plan.single t bs = .ok b) :
    b ∈ bs := by
  match bs, h with
  | [c], h => cases h; exact List.mem_cons_self

/-! ### What arguments keep -/

/-- Lookups, receipts and denials keep `P`, lookups find beans with `F`, and for these it does not
matter which of `wire` and `wire'` wires them. -/
structure Fetches (plan : Plan) (wire wire' : Nat → Wiring Unit) (asker : Asker)
    (P : Assembly → Prop) (F : Nat → Prop) : Prop where
  find : ∀ sel a, P a → After (Wiring.ofResolving (plan.find sel)) a fun r t =>
    P t ∧ ∀ bs, r = .ok bs → ∀ b ∈ bs, F b
  receive : ∀ t b, F b → Agrees P (plan.receive wire asker t b) (plan.receive wire' asker t b)
  denied : ∀ a cause, P a → P (a.note (.denied asker cause))

/-- So does what the injector does with beans of another container. -/
structure Gathers (plan : Plan) (wire wire' : Nat → Wiring Unit) (asker : Asker)
    (P : Assembly → Prop) (F : Nat → Prop) : Prop extends Fetches plan wire wire' asker P F where
  meet : ∀ s, Agrees P (plan.meet wire s) (plan.meet wire' s)

section
variable {wire wire' : Nat → Wiring Unit} {asker : Asker} {P : Assembly → Prop} {F : Nat → Prop}

theorem Fetches.find_agrees (h : plan.Fetches wire wire' asker P F) (sel : Selector) :
    Agrees P (Wiring.ofResolving (plan.find sel)) (Wiring.ofResolving (plan.find sel)) :=
  fun a ha => ⟨rfl, (h.find sel a ha).mono fun _ _ ht => ht.1⟩

/-- What goes on with the beans that a lookup finds. -/
theorem Fetches.found (h : plan.Fetches wire wire' asker P F) {α : Type} (sel : Selector)
    {f g : List Nat → Wiring α} (hf : ∀ bs, (∀ b ∈ bs, F b) → Agrees P (f bs) (g bs)) :
    Agrees P (Wiring.ofResolving (plan.find sel) >>= f)
      (Wiring.ofResolving (plan.find sel) >>= g) :=
  (h.find_agrees sel).bind_of_ok
    (fun a ha => (h.find sel a ha).mono fun _ _ ht bs hr => ht.2 bs hr) hf

theorem Fetches.orDenied (h : plan.Fetches wire wire' asker P F) {α : Type} {x y : Wiring α}
    (hx : Agrees P x y) : Agrees P (orDenied asker x) (orDenied asker y) := by
  refine hx.noting fun a failure ha => ?_
  cases failure with
  | none => exact ha
  | some cause => exact h.denied a cause ha

theorem receive_agrees {t : TypeName} {b : Nat} (hw : Agrees P (wire b) (wire' b))
    (hconnect : ∀ a, P a → P (a.connect b))
    (hreceived : ∀ a, P a → P (a.note (.received asker b))) :
    Agrees P (plan.receive wire asker t b) (plan.receive wire' asker t b) := by
  refine (hw.bind fun _ => agrees_modify hconnect).bind fun _ => agrees_get_bind fun a ha => ?_
  cases plan.instanceOf a.progress.registry t b with
  | error cause => exact ⟨rfl, ha⟩
  | ok i => exact ⟨rfl, hreceived a ha⟩

theorem receiveOne_agrees (h : plan.Fetches wire wire' asker P F) (t : TypeName) (sel : Selector) :
    Agrees P (plan.receiveOne wire asker t sel) (plan.receiveOne wire' asker t sel) := by
  refine h.orDenied (h.found sel fun found hF => ?_)
  cases hb : plan.single t found with
  | error e => exact agrees_throw e
  | ok b => exact h.receive t b (hF b (mem_of_single hb))

theorem receiveAll_agrees (h : plan.Fetches wire wire' asker P F) (t : TypeName) :
    Agrees P (plan.receiveAll wire asker t) (plan.receiveAll wire' asker t) :=
  h.orDenied (h.found _ fun _ hF => Agrees.mapM fun b hb => h.receive t b (hF b hb))

theorem gather_agrees (h : plan.Gathers wire wire' asker P F) :
    ∀ arg : Arg, Agrees P (plan.gather wire asker arg) (plan.gather wire' asker arg)
  | .one t => (receiveOne_agrees h.toFetches t _).bind fun _ => agrees_pure _
  | .every t => (receiveAll_agrees h.toFetches t).bind fun _ => agrees_pure _
  | .named t n => (receiveOne_agrees h.toFetches t _).bind fun _ => agrees_pure _
  | .properties _ => agrees_pure _
  | .token => agrees_pure _
  | .attempt arg => fun a ha => by
    obtain ⟨he, hk⟩ := gather_agrees h arg a ha
    rw [gather, gather, outcome_attempt, outcome_attempt, he, after_attempt]
    exact ⟨rfl, hk⟩
  | .find sel => h.found sel fun _ _ => agrees_pure _
  | .surroundings => agrees_get_bind fun a ha => ⟨rfl, ha⟩
  | .stranger s => (h.meet s).bind fun _ => agrees_pure _
  | .window questions =>
    (receiveOne_agrees h.toFetches windowType _).bind fun _ => agrees_get_bind fun a ha => ⟨rfl, ha⟩

theorem gatherAll_agrees (h : plan.Gathers wire wire' asker P F) (args : List Arg) :
    Agrees P (args.mapM (plan.gather wire asker)) (args.mapM (plan.gather wire' asker)) :=
  Agrees.mapM fun arg _ => gather_agrees h arg

end
end Plan
end Inversion
