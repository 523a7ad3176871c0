/-
# Evaluating conditions

A condition does nothing but look up beans, by way of a given lookup, and note
what it does. So it keeps what the lookup and the notes keep
(`Condition.holds_carries`).

A condition propagates failures if it fails whenever one of its lookups does. It
has an answer then only if all its lookups had one, and the facts that hold after
the lookups that succeed hold after it. For any other condition, these facts have
to hold after failed lookups as well.

With lookups that come to the same, a condition comes to the same
(`Condition.holds_agrees`).
-/
import Inversion.Proofs.Outcome
import Inversion.Resolution

namespace Inversion

/-! ### Propagation of failures -/

/-- Whatever the probe looks up, it ends in failure. -/
def Probe.Fails : Probe → Prop
  | answer _ => False
  | fail _ => True
  | raise _ => True
  | note _ next => next.Fails
  | find _ next => ∀ ids, (next ids).Fails
  | attempt _ next => ∀ result, (next result).Fails
  | properties next => ∀ properties, (next properties).Fails
  | cancelled next => ∀ b, (next b).Fails

/-- The probe fails if one of its lookups does. -/
def Probe.Propagates : Probe → Prop
  | answer _ => True
  | fail _ => True
  | raise _ => True
  | note _ next => next.Propagates
  | find _ next => ∀ ids, (next ids).Propagates
  | attempt _ next =>
    (∀ cause, (next (.error cause)).Fails) ∧ ∀ ids, (next (.ok ids)).Propagates
  | properties next => ∀ properties, (next properties).Propagates
  | cancelled next => ∀ b, (next b).Propagates

mutual
/-- The condition fails if one of its lookups does. -/
def Condition.Propagates : Condition → Prop
  | .property _ _ _ => True
  | .missingProperty _ => True
  | .beans _ _ => True
  | .not c => c.Propagates
  | .all cs => Condition.AllPropagate cs
  | .any cs => Condition.AllPropagate cs
  | .probe pr => pr.Propagates
  | .context _ c => c.Propagates

def Condition.AllPropagate : List Condition → Prop
  | [] => True
  | c :: cs => c.Propagates ∧ Condition.AllPropagate cs
end

mutual
/-- The condition looks at properties and at other beans, with negations and groups. -/
def Condition.isPlain : Condition → Bool
  | .property _ _ _ => true
  | .missingProperty _ => true
  | .beans _ _ => true
  | .not c => c.isPlain
  | .all cs => Condition.arePlain cs
  | .any cs => Condition.arePlain cs
  | .probe _ => false
  | .context _ _ => false

def Condition.arePlain : List Condition → Bool
  | [] => true
  | c :: cs => c.isPlain && Condition.arePlain cs
end

mutual
theorem Condition.propagates_of_isPlain : ∀ c : Condition, c.isPlain → c.Propagates
  | .property _ _ _, _ => trivial
  | .missingProperty _, _ => trivial
  | .beans _ _, _ => trivial
  | .not c, h => Condition.propagates_of_isPlain c h
  | .all cs, h => Condition.allPropagate_of_arePlain cs h
  | .any cs, h => Condition.allPropagate_of_arePlain cs h

theorem Condition.allPropagate_of_arePlain :
    ∀ cs : List Condition, Condition.arePlain cs → Condition.AllPropagate cs
  | [], _ => trivial
  | c :: cs, h => by
    obtain ⟨hc, hcs⟩ := (Bool.and_eq_true _ _).mp h
    exact ⟨Condition.propagates_of_isPlain c hc, Condition.allPropagate_of_arePlain cs hcs⟩
end

/-! ### Computations whose failure is a value -/

section
variable {σ ε α : Type}

@[simp] theorem after_observe (x : ExceptT ε (StateM σ) α) {s : σ}
    {Q : Except ε (Except ε α) → σ → Prop} :
    After (observe x) s Q ↔ After x s fun r t => Q (.ok r) t :=
  Iff.rfl

theorem agrees_observe {J : σ → Prop} {x y : ExceptT ε (StateM σ) α} (h : Agrees J x y) :
    Agrees J (observe x) (observe y) := by
  intro s hs
  obtain ⟨he, hk⟩ := h s hs
  refine ⟨outcome_congr fun Q => ?_, ?_⟩
  · rw [after_observe, after_observe]
    unfold After
    rw [he]
  · rw [after_observe]
    exact hk

end

/-! ### What conditions keep -/

/-- The notes that conditions make of themselves. -/
def Event.IsCheck : Event → Prop
  | test _ => True
  | noted _ => True
  | _ => False

/-- Lookups and notes take `J` to `J`, or fail into `K`, which they keep. -/
structure Hosts (find : Selector → Checking (List Nat)) (J K : Progress → Prop) : Prop where
  weaken : ∀ p, J p → K p
  note : ∀ p e, e.IsCheck → J p → J (p.note e)
  note_failed : ∀ p e, e.IsCheck → K p → K (p.note e)
  lookup : ∀ sel, Carries J K (find sel)
  lookup_failed : ∀ sel, Keeps K (find sel)

theorem Hosts.keeps {find : Selector → Checking (List Nat)} {J : Progress → Prop}
    (hnote : ∀ p e, e.IsCheck → J p → J (p.note e)) (hfind : ∀ sel, Keeps J (find sel)) :
    Hosts find J J :=
  ⟨fun _ h => h, hnote, hnote, hfind, hfind⟩

theorem Hosts.carries_note {find : Selector → Checking (List Nat)} {J K : Progress → Prop}
    (h : Hosts find J K) {e : Event} (he : e.IsCheck) :
    Carries J K (modify (·.note e) : Checking PUnit) :=
  carries_modify fun p hp => h.note p e he hp

section
variable {plan : Plan} {find : Selector → Checking (List Nat)} {J K : Progress → Prop}

/-- A probe that is bound to fail does so. -/
theorem Probe.run_fails (h : Hosts find J K) :
    ∀ probe : Probe, probe.Fails → ∀ p, K p →
      After (probe.run plan find) p (Split (fun _ => False) K)
  | answer _, hf, _, _ => hf.elim
  | fail _, _, _, hp => hp
  | raise _, _, _, hp => hp
  | note entry next, hf, p, hp => by
    simp only [Probe.run, after_bind, after_modify, continues_ok]
    exact run_fails h next hf _ (h.note_failed p _ trivial hp)
  | .find sel next, hf, p, hp => by
    simp only [Probe.run, after_bind]
    refine (h.lookup_failed sel p hp).mono fun r q hq => ?_
    cases r with
    | ok found => exact run_fails h _ (hf _) q hq
    | error cause => exact hq
  | attempt sel next, hf, p, hp => by
    simp only [Probe.run, after_bind, after_observe, continues_ok]
    exact (h.lookup_failed sel p hp).mono fun r q hq =>
      run_fails h _ (hf _) q (split_same.mp hq)
  | properties next, hf, p, hp => by
    simp only [Probe.run]
    exact run_fails h _ (hf _) p hp
  | cancelled next, hf, p, hp => by
    simp only [Probe.run]
    exact run_fails h _ (hf _) p hp

theorem Probe.run_carries (h : Hosts find J K) :
    ∀ probe : Probe, (probe.Propagates ∨ ∀ p, K p → J p) → Carries J K (probe.run plan find)
  | answer b, _ => carries_pure b
  | fail message, _ => carries_throw h.weaken _
  | raise cause, _ => carries_throw h.weaken _
  | note entry next, hc => by
    simp only [Probe.run]
    exact (h.carries_note (by trivial)).bind fun _ =>
      run_carries h next hc
  | .find sel next, hc => by
    simp only [Probe.run]
    exact (h.lookup sel).bind fun found => run_carries h _ (hc.imp_left fun hc => hc _)
  | attempt sel next, hc => by
    intro p hp
    simp only [Probe.run, after_bind, after_observe, continues_ok]
    refine (h.lookup sel p hp).mono fun r q hq => ?_
    cases r with
    | ok found => exact run_carries h _ (hc.imp_left fun hc => hc.2 _) q hq
    | error cause =>
      -- the failure is a value, so either the probe fails as well or it does not matter
      rcases hc with hc | hc
      · refine (run_fails h _ (hc.1 cause) q hq).mono fun r t ht => ?_
        cases r with
        | ok b => exact ht.elim
        | error e => exact ht
      · exact run_carries h _ (.inr hc) q (hc q hq)
  | properties next, hc => by
    simp only [Probe.run]
    exact run_carries h _ (hc.imp_left fun hc => hc _)
  | cancelled next, hc => by
    simp only [Probe.run]
    exact run_carries h _ (hc.imp_left fun hc => hc _)

mutual
theorem Condition.holds_carries (h : Hosts find J K) :
    ∀ c : Condition, (c.Propagates ∨ ∀ p, K p → J p) → Carries J K (c.holds plan find)
  | .property key value ifMissing, _ => by
    simp only [Condition.holds]
    exact (h.carries_note (by trivial)).bind fun _ => carries_pure _
  | .missingProperty key, _ => by
    simp only [Condition.holds]
    exact (h.carries_note (by trivial)).bind fun _ => carries_pure _
  | .beans expectation sel, _ => by
    simp only [Condition.holds]
    exact (h.carries_note (by trivial)).bind fun _ =>
      (h.lookup sel).bind fun _ => carries_pure _
  | .not c, hc => by
    simp only [Condition.holds]
    exact (Condition.holds_carries h c hc).bind fun _ => carries_pure _
  | .all cs, hc => by
    simp only [Condition.holds]
    exact allHold_carries h cs hc
  | .any cs, hc => by
    simp only [Condition.holds]
    exact anyHolds_carries h cs hc
  | .probe pr, hc => by
    simp only [Condition.holds]
    exact (h.carries_note (by trivial)).bind fun _ =>
      pr.run_carries h hc
  | .context message c, hc => by
    simp only [Condition.holds]
    exact (Condition.holds_carries h c hc).adapt _

theorem allHold_carries (h : Hosts find J K) :
    ∀ cs : List Condition, (Condition.AllPropagate cs ∨ ∀ p, K p → J p) →
      Carries J K (allHold plan find cs)
  | [], _ => carries_pure true
  | c :: cs, hc => by
    simp only [allHold]
    refine (Condition.holds_carries h c (hc.imp_left And.left)).bind fun b => ?_
    cases b with
    | true => exact allHold_carries h cs (hc.imp_left And.right)
    | false => exact carries_pure false

theorem anyHolds_carries (h : Hosts find J K) :
    ∀ cs : List Condition, (Condition.AllPropagate cs ∨ ∀ p, K p → J p) →
      Carries J K (anyHolds plan find cs)
  | [], _ => carries_pure false
  | c :: cs, hc => by
    simp only [anyHolds]
    refine (Condition.holds_carries h c (hc.imp_left And.left)).bind fun b => ?_
    cases b with
    | true => exact carries_pure true
    | false => exact anyHolds_carries h cs (hc.imp_left And.right)
end

end

/-! ### Lookups that agree -/

/-- Notes keep `J`, and under `J` the two lookups come to the same. -/
structure Concur (find find' : Selector → Checking (List Nat)) (J : Progress → Prop) : Prop where
  note : ∀ p e, e.IsCheck → J p → J (p.note e)
  lookup : ∀ sel, Agrees J (find sel) (find' sel)

section
variable {plan : Plan} {find find' : Selector → Checking (List Nat)} {J : Progress → Prop}

theorem Concur.agrees_note (h : Concur find find' J) {e : Event} (he : e.IsCheck) :
    Agrees J (modify (·.note e) : Checking PUnit) (modify (·.note e)) :=
  agrees_modify fun p hp => h.note p e he hp

theorem Probe.run_agrees (h : Concur find find' J) :
    ∀ probe : Probe, Agrees J (probe.run plan find) (probe.run plan find')
  | answer b => agrees_pure b
  | fail message => agrees_throw _
  | raise cause => agrees_throw cause
  | note entry next => by
    simp only [Probe.run]
    exact (h.agrees_note (by trivial)).bind fun _ => run_agrees h next
  | .find sel next => by
    simp only [Probe.run]
    exact (h.lookup sel).bind fun found => run_agrees h _
  | attempt sel next => by
    simp only [Probe.run]
    exact (agrees_observe (h.lookup sel)).bind fun result => run_agrees h _
  | properties next => by
    simp only [Probe.run]
    exact run_agrees h _
  | cancelled next => by
    simp only [Probe.run]
    exact run_agrees h _

mutual
theorem Condition.holds_agrees (h : Concur find find' J) :
    ∀ c : Condition, Agrees J (c.holds plan find) (c.holds plan find')
  | .property key value ifMissing => by
    simp only [Condition.holds]
    exact (h.agrees_note (by trivial)).bind fun _ => agrees_pure _
  | .missingProperty key => by
    simp only [Condition.holds]
    exact (h.agrees_note (by trivial)).bind fun _ => agrees_pure _
  | .beans expectation sel => by
    simp only [Condition.holds]
    exact (h.agrees_note (by trivial)).bind fun _ =>
      (h.lookup sel).bind fun _ => agrees_pure _
  | .not c => by
    simp only [Condition.holds]
    exact (Condition.holds_agrees h c).bind fun _ => agrees_pure _
  | .all cs => by
    simp only [Condition.holds]
    exact allHold_agrees h cs
  | .any cs => by
    simp only [Condition.holds]
    exact anyHolds_agrees h cs
  | .probe pr => by
    simp only [Condition.holds]
    exact (h.agrees_note (by trivial)).bind fun _ => pr.run_agrees h
  | .context message c => by
    simp only [Condition.holds]
    exact (Condition.holds_agrees h c).adapt _

theorem allHold_agrees (h : Concur find find' J) :
    ∀ cs : List Condition, Agrees J (allHold plan find cs) (allHold plan find' cs)
  | [] => agrees_pure true
  | c :: cs => by
    simp only [allHold]
    refine (Condition.holds_agrees h c).bind fun b => ?_
    cases b with
    | true => exact allHold_agrees h cs
    | false => exact agrees_pure false

theorem anyHolds_agrees (h : Concur find find' J) :
    ∀ cs : List Condition, Agrees J (anyHolds plan find cs) (anyHolds plan find' cs)
  | [] => agrees_pure false
  | c :: cs => by
    simp only [anyHolds]
    refine (Condition.holds_agrees h c).bind fun b => ?_
    cases b with
    | true => exact agrees_pure true
    | false => exact anyHolds_agrees h cs
end

end
end Inversion
