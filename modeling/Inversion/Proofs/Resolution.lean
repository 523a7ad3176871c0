/-
# What a resolution keeps

A resolution changes the progress in three ways: it begins a bean, which was
fresh, and then it settles or discards that bean, which is still being resolved.
All else it does is to remark what it looks at. `Persists` collects this for a
property, and a property that persists is kept by every resolution and lookup, of
whatever conditions (`resolve_keeps`, `find_keeps`).

A bean that is no longer fresh is left alone by every resolution but its own
(`resolve_keeps_mark`), which is why a bean whose conditions have been evaluated
is still being resolved.
-/
import Mathlib.Data.Finset.Card
import Mathlib.Data.Finset.Range
import Inversion.Proofs.Condition

namespace Inversion

/-! ### Beans by status -/

namespace Registry

/-- The beans with a status of some kind, which deleted beans do not have. -/
def having (kind : Status → Bool) (r : Registry) : Finset Nat :=
  (Finset.range r.marks.length).filter fun b => kind (r.status b)

section
variable {kind : Status → Bool} {r r' : Registry} {b : Nat}

theorem mem_having (hd : kind .deleted = false) : b ∈ r.having kind ↔ kind (r.status b) := by
  unfold having
  rw [Finset.mem_filter, Finset.mem_range]
  refine ⟨fun h => h.2, fun h => ⟨lt_length_of_status fun hb => ?_, h⟩⟩
  rw [hb, hd] at h
  cases h

theorem card_having_le : (r.having kind).card ≤ r.marks.length := by
  unfold having
  refine (Finset.card_filter_le _ _).trans ?_
  rw [Finset.card_range]

theorem having_subset (hd : kind .deleted = false)
    (h : ∀ b, kind (r'.status b) → kind (r.status b)) : r'.having kind ⊆ r.having kind :=
  fun b hb => (mem_having hd).mpr (h b ((mem_having hd).mp hb))

theorem having_setStatus (hd : kind .deleted = false) {s : Status} (hs : kind s = false) :
    (r.setStatus b s).having kind = (r.having kind).erase b := by
  ext c
  rw [Finset.mem_erase, mem_having hd, mem_having hd, status_setStatus]
  by_cases hc : c = b
  · by_cases hb : b < r.marks.length
    · simp [hc, hb, hs]
    · have hdel : r.status b = .deleted := by simp [status, hb]
      simp [hc, hb, hdel, hd]
  · simp [hc]

end
end Registry

/-- The notes that resolutions make beside their changes. -/
def Event.IsRemark : Event → Prop
  | test _ => True
  | noted _ => True
  | walked _ => True
  | skipped _ _ => True
  | lookedUp _ _ _ => True
  | unresolved _ _ => True
  | configurationSkipped _ _ => True
  | _ => False

theorem Event.IsCheck.isRemark {e : Event} (h : e.IsCheck) : e.IsRemark := by
  cases e <;> trivial

/-- The notes of the indices. -/
def Event.IsIndexing : Event → Prop
  | indexedByType _ _ => True
  | indexedByName _ _ => True
  | _ => False

/-- The bean that has been resolved. -/
def Event.resolved? : Event → Option Nat
  | status b .resolved => some b
  | _ => none

theorem Event.resolved?_eq_some {e : Event} {b : Nat} (h : e.resolved? = some b) :
    e = .status b .resolved := by
  unfold resolved? at h
  split at h
  · cases h
    rfl
  · cases h

/-- What resolutions note: no bean is created or wired by them. -/
def Event.IsOfResolution : Event → Prop
  | status _ s => s ≠ .creating ∧ s ≠ .wired
  | test _ => True
  | noted _ => True
  | walked _ => True
  | indexedByType _ _ => True
  | indexedByName _ _ => True
  | skipped _ _ => True
  | lookedUp _ _ _ => True
  | deleted _ => True
  | unresolved _ _ => True
  | configurationSkipped _ _ => True
  | _ => False

/-- Events that say nothing of creations, receipts and destroyers. -/
def Event.IsQuiet : Event → Prop
  | received _ _ => False
  | built _ _ _ => False
  | buildFailed _ _ => False
  | instantiated _ => False
  | initialised _ _ _ => False
  | creationEnded _ _ => False
  | wired _ => False
  | beansWired => False
  | refreshed => False
  | teardown _ _ _ => False
  | closed => False
  | _ => True

theorem Event.IsRemark.isOfResolution {e : Event} (h : e.IsRemark) : e.IsOfResolution := by
  cases e <;> trivial

theorem Event.IsIndexing.isOfResolution {e : Event} (h : e.IsIndexing) : e.IsOfResolution := by
  cases e <;> trivial

theorem Event.IsOfResolution.isQuiet {e : Event} (h : e.IsOfResolution) : e.IsQuiet := by
  cases e <;> trivial

theorem Event.IsRemark.isQuiet {e : Event} (h : e.IsRemark) : e.IsQuiet :=
  h.isOfResolution.isQuiet

namespace Plan

/-! ### Settled and discarded beans -/

section
variable (b c : Nat) (bean : Bean) (exports : List TypeName) (p : Progress)

/-- What each entry of the bean keeps is kept by its indexing. -/
theorem index_induction {P : Progress → Prop}
    (htype : ∀ q t, P q →
      P ({ q with registry := q.registry.indexType t b }.note (.indexedByType bean.id t)))
    (hname : ∀ q n, P q →
      P ({ q with registry := q.registry.indexName n b }.note (.indexedByName bean.id n)))
    (hp : P p) : P (index b bean exports p) := by
  have types : ∀ (ts : List TypeName) (q : Progress), P q → P (ts.foldl (fun p t =>
      { p with registry := p.registry.indexType t b }.note (.indexedByType bean.id t)) q) := by
    intro ts
    induction ts with
    | nil => exact fun _ hq => hq
    | cons t ts ih => exact fun q hq => ih _ (htype q t hq)
  have htypes := types (insertRepeated bean.type exports) p hp
  unfold index
  cases bean.name with
  | none => exact htypes
  | some name => exact hname _ name htypes

/-- Indexing changes no mark, and notes nothing but itself. -/
theorem index_spec :
    (index b bean exports p).registry.marks = p.registry.marks ∧
      ∃ ms : List Moment, (index b bean exports p).history = ms ++ p.history ∧
        ∀ m ∈ ms, m.event.IsIndexing ∧ m.registry.marks = p.registry.marks := by
  refine index_induction b bean exports p (P := fun q => q.registry.marks = p.registry.marks ∧
    ∃ ms : List Moment, q.history = ms ++ p.history ∧
      ∀ m ∈ ms, m.event.IsIndexing ∧ m.registry.marks = p.registry.marks)
    (fun q t ⟨hm, ms, hh, hms⟩ => ?_) (fun q n ⟨hm, ms, hh, hms⟩ => ?_) ⟨rfl, [], rfl, by simp⟩
  · exact ⟨hm, _ :: ms, congrArg (_ :: ·) hh, List.forall_mem_cons.mpr ⟨⟨trivial, hm⟩, hms⟩⟩
  · exact ⟨hm, _ :: ms, congrArg (_ :: ·) hh, List.forall_mem_cons.mpr ⟨⟨trivial, hm⟩, hms⟩⟩

theorem mark_settle_of_ne (h : c ≠ b) :
    (settle b bean exports p).registry.marks[c]? = p.registry.marks[c]? := by
  refine (Registry.mark_setStatus_of_ne _ b c _ h).trans ?_
  rw [Registry.mark_setExports_of_ne _ b c _ h, (index_spec b bean exports p).1]

@[simp] theorem length_settle :
    (settle b bean exports p).registry.marks.length = p.registry.marks.length := by
  simp [settle, (index_spec b bean exports p).1]

theorem status_settle_self (h : b < p.registry.marks.length) :
    (settle b bean exports p).registry.status b = .resolved := by
  refine Registry.status_setStatus_self _ b _ ?_
  rwa [Registry.length_setExports, (index_spec b bean exports p).1]

theorem status_settle_of_ne (h : c ≠ b) :
    (settle b bean exports p).registry.status c = p.registry.status c := by
  rw [Registry.status, mark_settle_of_ne b c bean exports p h, Registry.status]

theorem exports_settle_of_ne (h : c ≠ b) :
    (settle b bean exports p).registry.exports c = p.registry.exports c := by
  rw [Registry.exports, mark_settle_of_ne b c bean exports p h, Registry.exports]

variable (plan : Plan)

@[simp] theorem length_discard :
    (plan.discard b p).registry.marks.length = p.registry.marks.length :=
  Registry.length_setStatus _ b _

theorem status_discard_self (h : b < p.registry.marks.length) :
    (plan.discard b p).registry.status b = .deleted :=
  Registry.status_setStatus_self _ b _ h

theorem status_discard_of_ne (h : c ≠ b) :
    (plan.discard b p).registry.status c = p.registry.status c :=
  Registry.status_setStatus_of_ne _ b c _ h

@[simp] theorem exports_discard :
    (plan.discard b p).registry.exports c = p.registry.exports c :=
  Registry.exports_setStatus _ b c _

end

variable {plan : Plan}

/-! ### Lookups -/

section
variable {J K : Progress → Prop} {resolve : Nat → Resolving Unit} {sel : Selector}

theorem scan_carries (hskip : ∀ p id, J p → J (p.note (.skipped id sel)))
    (hresolve : ∀ b, Carries J K (resolve b)) :
    ∀ bs : List Nat, Carries J K (plan.scan resolve sel bs)
  | [] => carries_pure []
  | b :: bs => by
    have ih := scan_carries hskip hresolve bs
    rw [scan]
    refine carries_get_bind fun p hp => ?_
    split
    · exact ((carries_modify fun q hq => hskip q _ hq).bind fun _ => ih) p hp
    · refine ((hresolve b).bind fun _ => carries_get_bind fun q hq => ?_) p hp
      exact (ih.bind fun found => carries_pure _) q hq

theorem findWith_carries (hskip : ∀ p id, J p → J (p.note (.skipped id sel)))
    (hlook : ∀ p away found, J p → J (p.note (.lookedUp sel away found)))
    (hresolve : ∀ b, Carries J K (resolve b)) : Carries J K (plan.findWith resolve sel) := by
  refine carries_get_bind fun p hp => ?_
  refine ((scan_carries hskip hresolve _).bind fun found => ?_) p hp
  exact (carries_modify fun q hq => hlook q _ _ hq).bind fun _ => carries_pure found

end

/-! ### Resolutions -/

/-- What a property has to bear so that resolutions keep it. -/
structure Persists (plan : Plan) (P : Progress → Prop) : Prop where
  note : ∀ p e, e.IsRemark → P p → P (p.note e)
  begin : ∀ p b, p.registry.status b = .fresh → P p → P (p.setStatus b .resolving)
  settle : ∀ p b bean exports, plan.beans[b]? = some bean → p.registry.status b = .resolving →
    plan.exportsOf bean = .ok exports → P p → P (settle b bean exports p)
  discard : ∀ p b, p.registry.status b = .resolving → P p → P (plan.discard b p)

/-- The lookups of a resolution with `n` more resolutions inside. -/
def seek (plan : Plan) (n : Nat) (sel : Selector) : Checking (List Nat) :=
  (plan.findWith (resolve plan n) sel).adapt Fault.lookup

/-- The evaluation of a bean's conditions. -/
def check (plan : Plan) (n : Nat) (bean : Bean) : Resolving Bool :=
  (allHold plan (plan.seek n) bean.conditions).adapt (ResolveError.condition bean.id)

theorem seek_carries {J K : Progress → Prop} {n : Nat} {sel : Selector}
    (hskip : ∀ p id, J p → J (p.note (.skipped id sel)))
    (hlook : ∀ p away found, J p → J (p.note (.lookedUp sel away found)))
    (hresolve : ∀ b, Carries J K (plan.resolve n b)) : Carries J K (plan.seek n sel) :=
  (findWith_carries hskip hlook hresolve).adapt _

theorem check_carries {J K : Progress → Prop} {n : Nat} {bean : Bean}
    (h : Hosts (plan.seek n) J K)
    (hc : Condition.AllPropagate bean.conditions ∨ ∀ p, K p → J p) :
    Carries J K (plan.check n bean) :=
  (allHold_carries h bean.conditions hc).adapt _

theorem resolve_of_unregistered {b : Nat} (h : plan.beans[b]? = none) (n : Nat) :
    plan.resolve (n + 1) b = pure () := by
  rw [resolve, h]

theorem resolve_of_begun {b : Nat} {p : Progress} (h : p.registry.status b ≠ .fresh) (n : Nat)
    {Q : Except ResolveError Unit → Progress → Prop} :
    After (plan.resolve n b) p Q ↔ Q (.ok ()) p := by
  cases n with
  | zero => rfl
  | succ n =>
    rw [resolve]
    cases plan.beans[b]? with
    | none => rfl
    | some bean => simp [h]

/-- `Q` behind a resolution whose failure is noted. -/
def Reports (b : Nat) (Q : Except ResolveError Unit → Progress → Prop) :
    Except ResolveError Unit → Progress → Prop
  | .ok _, q => Q (.ok ()) q
  | .error e, q => Q (.error e) (q.note (.unresolved b e))

theorem after_reported {b : Nat} {x : Resolving Unit} {p : Progress}
    {Q : Except ResolveError Unit → Progress → Prop} :
    After (reported b x) p Q ↔ After x p (Reports b Q) := by
  rw [reported, after_bind, after_observe]
  refine iff_of_eq (congrArg (After x p) (funext fun r => funext fun q => ?_))
  cases r <;> rfl

/-- The resolution of a fresh bean, by what its conditions come to: with `D` behind its
conditions, and `E` once its composition is walked, if it has one. -/
theorem resolve_of_fresh_walked {b n : Nat} {bean : Bean} {p : Progress}
    (hbean : plan.beans[b]? = some bean) (hb : p.registry.status b = .fresh)
    {D : Except ResolveError Bool → Progress → Prop} {E : Progress → Prop}
    {Q : Except ResolveError Unit → Progress → Prop}
    (check : After (plan.check n bean) (p.setStatus b .resolving) D)
    (plain : ∀ q, bean.composite = false → D (.ok true) q → E q)
    (walked : ∀ q, bean.composite = true → D (.ok true) q → E (q.note (.walked b)))
    (failed : ∀ e q, D (.error e) q → Q (.error e) (q.note (.unresolved b e)))
    (unexported : ∀ e q, E q → plan.exportsOf bean = .error e →
      Q (.error e) (q.note (.unresolved b e)))
    (deleted : ∀ q, D (.ok false) q → Q (.ok ()) (plan.discard b q))
    (settled : ∀ exports q, E q → plan.exportsOf bean = .ok exports →
      Q (.ok ()) (settle b bean exports q)) : After (plan.resolve (n + 1) b) p Q := by
  rw [resolve, hbean]
  simp only [after_bind, after_get, continues_ok, hb, ↓reduceIte, after_modify]
  rw [after_reported, after_bind]
  refine After.mono check fun r q hq => ?_
  rcases r with e | _ | _
  · exact failed e q hq
  · exact deleted q hq
  · rw [continues_ok, if_pos rfl]
    unfold accept
    cases hc : bean.composite with
    | false =>
      cases he : plan.exportsOf bean with
      | error e => exact unexported e q (plain q hc hq) he
      | ok exports => exact settled exports q (plain q hc hq) he
    | true =>
      cases he : plan.exportsOf bean with
      | error e => exact unexported e _ (walked q hc hq) he
      | ok exports => exact settled exports _ (walked q hc hq) he

/-- The resolution of a fresh bean, by what its conditions come to. -/
theorem resolve_of_fresh {b n : Nat} {bean : Bean} {p : Progress} (hbean : plan.beans[b]? = some bean)
    (hb : p.registry.status b = .fresh) {D : Except ResolveError Bool → Progress → Prop}
    {Q : Except ResolveError Unit → Progress → Prop}
    (check : After (plan.check n bean) (p.setStatus b .resolving) D)
    (walked : ∀ q, D (.ok true) q → D (.ok true) (q.note (.walked b)))
    (failed : ∀ e q, D (.error e) q → Q (.error e) (q.note (.unresolved b e)))
    (unexported : ∀ e q, D (.ok true) q → plan.exportsOf bean = .error e →
      Q (.error e) (q.note (.unresolved b e)))
    (deleted : ∀ q, D (.ok false) q → Q (.ok ()) (plan.discard b q))
    (settled : ∀ exports q, D (.ok true) q → plan.exportsOf bean = .ok exports →
      Q (.ok ()) (settle b bean exports q)) : After (plan.resolve (n + 1) b) p Q :=
  resolve_of_fresh_walked hbean hb check (fun _ _ hq => hq) (fun q _ hq => walked q hq) failed
    unexported deleted settled

/-- Resolutions leave alone what is no longer fresh. -/
theorem resolve_keeps_mark {c : Nat} {m : Mark} (hm : m.status ≠ .fresh) :
    ∀ n b, Keeps (fun p => p.registry.marks[c]? = some m) (plan.resolve n b)
  | 0, _ => carries_pure ()
  | n + 1, b => by
    intro p hp
    cases hb : plan.beans[b]? with
    | none => rwa [resolve_of_unregistered hb]
    | some bean =>
      by_cases h : p.registry.status b = .fresh
      · have hne : c ≠ b := by
          rintro rfl
          simp [Registry.status, hp, hm] at h
        have hcheck : Keeps (fun p => p.registry.marks[c]? = some m) (plan.check n bean) :=
          check_carries (Hosts.keeps (fun q e _ hq => hq) fun sel =>
            seek_carries (fun q _ hq => hq) (fun q _ _ hq => hq) (resolve_keeps_mark hm n))
            (.inr fun _ h => h)
        have hbegun : (p.setStatus b .resolving).registry.marks[c]? = some m :=
          (Registry.mark_setStatus_of_ne _ b c _ hne).trans hp
        refine resolve_of_fresh hb h (hcheck _ hbegun) (fun q hq => hq) (fun e q hq => hq)
          (fun e q hq _ => hq) (fun q hq => ?_) fun exports q hq _ => ?_
        · exact (Registry.mark_setStatus_of_ne _ b c _ hne).trans hq
        · exact (mark_settle_of_ne b c bean exports q hne).trans hq
      · rwa [resolve_of_begun h]

theorem resolve_keeps_status {c : Nat} {s : Status} (hs : s ≠ .fresh) (hd : s ≠ .deleted) (n b : Nat) :
    Keeps (fun p => p.registry.status c = s) (plan.resolve n b) := by
  intro p hp
  cases hm : p.registry.marks[c]? with
  | none => exact absurd hp (by simpa [Registry.status, hm] using hd.symm)
  | some m =>
    have hms : m.status = s := by simpa [Registry.status, hm] using hp
    refine (resolve_keeps_mark (hms ▸ hs) n b p hm).mono fun r q hq => split_same.mpr ?_
    simp [Registry.status, split_same.mp hq, hms]

/-- While the conditions of a bean are evaluated, it is being resolved. -/
theorem check_keeps_resolving (b n : Nat) (bean : Bean) :
    Keeps (fun p => p.registry.status b = .resolving) (plan.check n bean) :=
  check_carries (Hosts.keeps (fun q e _ hq => hq) fun sel =>
    seek_carries (fun q _ hq => hq) (fun q _ _ hq => hq)
      (resolve_keeps_status (by decide) (by decide) n)) (.inr fun _ h => h)

/-- The same, where the bean is known to be still being resolved. -/
theorem after_resolve {b n : Nat} {bean : Bean} {p : Progress} (hbean : plan.beans[b]? = some bean)
    (hb : p.registry.status b = .fresh) {D : Except ResolveError Bool → Progress → Prop}
    {Q : Except ResolveError Unit → Progress → Prop}
    (check : After (plan.check n bean) (p.setStatus b .resolving) D)
    (walked : ∀ q, D (.ok true) q → D (.ok true) (q.note (.walked b)))
    (failed : ∀ e q, D (.error e) q → Q (.error e) (q.note (.unresolved b e)))
    (unexported : ∀ e q, D (.ok true) q → plan.exportsOf bean = .error e →
      Q (.error e) (q.note (.unresolved b e)))
    (deleted : ∀ q, D (.ok false) q → q.registry.status b = .resolving →
      Q (.ok ()) (plan.discard b q))
    (settled : ∀ exports q, D (.ok true) q → q.registry.status b = .resolving →
      plan.exportsOf bean = .ok exports → Q (.ok ()) (settle b bean exports q)) :
    After (plan.resolve (n + 1) b) p Q := by
  have hlt : b < p.registry.marks.length := Registry.lt_length_of_status_eq hb (by decide)
  have hbegun : (p.setStatus b .resolving).registry.status b = .resolving :=
    Registry.status_setStatus_self _ b _ hlt
  have hcheck : After (plan.check n bean) (p.setStatus b .resolving) fun r q =>
      D r q ∧ q.registry.status b = .resolving :=
    (check.and (check_keeps_resolving b n bean _ hbegun)).mono fun r q ⟨hq, hr⟩ => by
      rw [split_same] at hr
      exact ⟨hq, hr⟩
  exact resolve_of_fresh hbean hb hcheck (fun q hq => ⟨walked q hq.1, hq.2⟩)
    (fun e q hq => failed e q hq.1) (fun e q hq he => unexported e q hq.1 he)
    (fun q hq => deleted q hq.1 hq.2) fun exports q hq he => settled exports q hq.1 hq.2 he

/-- A property that persists is kept, whatever the conditions do. -/
theorem resolve_keeps {P : Progress → Prop} (h : plan.Persists P) :
    ∀ n b, Keeps P (plan.resolve n b)
  | 0, _ => carries_pure ()
  | n + 1, b => by
    intro p hp
    cases hb : plan.beans[b]? with
    | none => rwa [resolve_of_unregistered hb]
    | some bean =>
      by_cases hf : p.registry.status b = .fresh
      · have hcheck : Keeps P (plan.check n bean) :=
          check_carries (Hosts.keeps (fun q e he hq => h.note q e he.isRemark hq) fun sel =>
            seek_carries (fun q _ hq => h.note q _ trivial hq)
              (fun q _ _ hq => h.note q _ trivial hq) (resolve_keeps h n)) (.inr fun _ h => h)
        exact after_resolve hb hf (hcheck _ (h.begin p b hf hp)) (fun q hq => h.note q _ trivial hq)
          (fun e q hq => h.note q _ trivial hq) (fun e q hq _ => h.note q _ trivial hq)
          (fun q hq hr => h.discard q b hr hq)
          fun exports q hq hr he => h.settle q b bean exports hb hr he hq
      · rwa [resolve_of_begun hf]

theorem findWith_keeps {P : Progress → Prop} (h : plan.Persists P) (n : Nat) (sel : Selector) :
    Keeps P (plan.findWith (plan.resolve n) sel) :=
  findWith_carries (fun p _ hp => h.note p _ trivial hp) (fun p _ _ hp => h.note p _ trivial hp)
    (resolve_keeps h n)

theorem find_keeps {P : Progress → Prop} (h : plan.Persists P) (sel : Selector) :
    Keeps P (plan.find sel) :=
  findWith_keeps h _ sel

theorem resolveAll_keeps {P : Progress → Prop} (h : plan.Persists P) : Keeps P plan.resolveAll :=
  Carries.forM fun b _ => resolve_keeps h _ b

/-- The conditions of configurations keep what their lookups and notes keep. -/
theorem admits_keeps_of {P : Progress → Prop} (hnote : ∀ p e, e.IsCheck → P p → P (p.note e))
    (hskip : ∀ p c title, P p → P (p.note (.configurationSkipped c title)))
    (hfind : ∀ sel, Keeps P (plan.find sel)) (configuration : Configuration) (c : Nat) :
    Keeps P (plan.admits configuration c) := by
  have hholds : Keeps P (allHold plan (fun sel => (plan.find sel).adapt Fault.lookup)
      configuration.conditions) :=
    allHold_carries (Hosts.keeps hnote fun sel => (hfind sel).adapt _) _ (.inr fun _ h => h)
  refine (hholds.adapt _).bind fun holds => ?_
  cases holds with
  | true => exact carries_pure _
  | false => exact (carries_modify fun p hp => hskip p _ _ hp).bind fun _ => carries_pure _

theorem admitted_keeps_of {P : Progress → Prop} (hnote : ∀ p e, e.IsCheck → P p → P (p.note e))
    (hskip : ∀ p c title, P p → P (p.note (.configurationSkipped c title)))
    (hfind : ∀ sel, Keeps P (plan.find sel)) :
    ∀ cs : List (Configuration × Nat), Keeps P (plan.admitted cs)
  | [] => carries_pure []
  | (configuration, c) :: cs =>
    (admits_keeps_of hnote hskip hfind configuration c).bind fun _ =>
      (admitted_keeps_of hnote hskip hfind cs).bind fun _ => carries_pure _

theorem admitted_keeps {P : Progress → Prop} (h : plan.Persists P)
    (cs : List (Configuration × Nat)) : Keeps P (plan.admitted cs) :=
  admitted_keeps_of (fun q e he hq => h.note q e he.isRemark hq)
    (fun q _ _ hq => h.note q _ (by trivial) hq) (find_keeps h) cs

theorem admitted_sublist : ∀ (cs : List (Configuration × Nat)) (p : Progress),
    After (plan.admitted cs) p fun r _ => ∀ as, r = .ok as → as.Sublist cs
  | [], _ => fun as h => by
    cases h
    exact .slnil
  | (configuration, c) :: cs, p => by
    rw [admitted, after_bind]
    refine After.mono (Q := fun _ _ => True) trivial fun r q _ => ?_
    cases r with
    | error cause => exact nofun
    | ok holds =>
      rw [continues_ok, after_bind]
      refine (admitted_sublist cs q).mono fun r t hrest => ?_
      cases r with
      | error cause => exact nofun
      | ok rest =>
        intro as h
        cases h
        cases holds with
        | true => exact (hrest rest rfl).cons_cons _
        | false => exact (hrest rest rfl).cons _

/-! ### A resolution of all beans -/

theorem Persists.and {P Q : Progress → Prop} (h : plan.Persists P) (h' : plan.Persists Q) :
    plan.Persists fun p => P p ∧ Q p where
  note p e he hp := ⟨h.note p e he hp.1, h'.note p e he hp.2⟩
  begin p b hb hp := ⟨h.begin p b hb hp.1, h'.begin p b hb hp.2⟩
  settle p b bean exports hbean hb he hp :=
    ⟨h.settle p b bean exports hbean hb he hp.1, h'.settle p b bean exports hbean hb he hp.2⟩
  discard p b hb hp := ⟨h.discard p b hb hp.1, h'.discard p b hb hp.2⟩

theorem Persists.all {ι : Type} {P : ι → Progress → Prop} (h : ∀ i, plan.Persists (P i)) :
    plan.Persists fun p => ∀ i, P i p where
  note p e he hp i := (h i).note p e he (hp i)
  begin p b hb hp i := (h i).begin p b hb (hp i)
  settle p b bean exports hbean hb he hp i := (h i).settle p b bean exports hbean hb he (hp i)
  discard p b hb hp i := (h i).discard p b hb (hp i)

theorem Persists.congr {P Q : Progress → Prop} (h : plan.Persists P) (hPQ : ∀ p, P p ↔ Q p) :
    plan.Persists Q := by
  rwa [← show P = Q from funext fun p => propext (hPQ p)]

/-- What can be said of the three statuses that resolutions set. -/
theorem persists_status {P : Status → Prop} (resolving : P .resolving) (resolved : P .resolved)
    (deleted : P .deleted) (c : Nat) : plan.Persists fun p => P (p.registry.status c) where
  note _ _ _ hp := hp
  begin p b _ hp := by
    rw [Progress.registry_setStatus, Registry.status_setStatus]
    split
    · exact resolving
    · exact hp
  settle p b bean exports _ hb _ hp := by
    by_cases hc : c = b
    · rwa [hc, status_settle_self b bean exports p
        (Registry.lt_length_of_status_eq hb (by decide))]
    · rwa [status_settle_of_ne b c bean exports p hc]
  discard p b hb hp := by
    by_cases hc : c = b
    · rwa [hc, status_discard_self b p plan (Registry.lt_length_of_status_eq hb (by decide))]
    · rwa [status_discard_of_ne b c p plan hc]

theorem persists_begun (c : Nat) : plan.Persists fun p => p.registry.status c ≠ .fresh :=
  persists_status (P := (· ≠ .fresh)) (by decide) (by decide) (by decide) c

theorem persists_length (n : Nat) : plan.Persists fun p => p.registry.marks.length = n where
  note _ _ _ hp := hp
  begin _ _ _ hp := (Registry.length_setStatus _ _ _).trans hp
  settle _ b bean exports _ _ _ hp := (length_settle b bean exports _).trans hp
  discard _ b _ hp := (length_discard b _ plan).trans hp

/-- Resolutions keep what the moments of resolutions do not change. -/
theorem persists_history {P : List Moment → Prop}
    (h : ∀ m ms, m.event.IsOfResolution → P ms → P (m :: ms)) : plan.Persists fun p => P p.history where
  note p e he hp := h ⟨e, p.registry⟩ _ he.isOfResolution hp
  begin _ b _ hp := h ⟨.status b .resolving, _⟩ _ ⟨nofun, nofun⟩ hp
  settle p b bean exports _ _ _ hp := h ⟨.status b .resolved, _⟩ _ ⟨nofun, nofun⟩
    (index_induction b bean exports p (P := fun q => P q.history)
      (fun _ t hq => h ⟨.indexedByType bean.id t, _⟩ _ trivial hq)
      (fun _ n hq => h ⟨.indexedByName bean.id n, _⟩ _ trivial hq) hp)
  discard _ b _ hp :=
    h ⟨.deleted (plan.idOf b), _⟩ _ trivial (h ⟨.status b .deleted, _⟩ _ ⟨nofun, nofun⟩ hp)

/-- Resolutions keep what the events of resolutions do not change. -/
theorem persists_events {P : List Event → Prop}
    (h : ∀ e es, e.IsOfResolution → P es → P (e :: es)) : plan.Persists fun p => P p.events :=
  persists_history (P := fun ms => P (ms.map Moment.event)) fun m _ hm hms => h m.event _ hm hms

/-- A resolution that succeeds leaves its bean no longer fresh. -/
theorem resolve_begins {b : Nat} {bean : Bean} (hb : plan.beans[b]? = some bean) (n : Nat)
    (p : Progress) :
    After (plan.resolve (n + 1) b) p fun r q => r = .ok () → q.registry.status b ≠ .fresh := by
  by_cases hf : p.registry.status b = .fresh
  · refine after_resolve hb hf (D := fun _ _ => True) trivial (fun _ _ => trivial)
      (fun e q _ h => (by cases h)) (fun e q _ _ h => (by cases h)) (fun q _ hq _ => ?_)
      fun exports q _ hq _ _ => ?_
    · rw [status_discard_self b q plan (Registry.lt_length_of_status_eq hq (by decide))]
      decide
    · rw [status_settle_self b bean exports q (Registry.lt_length_of_status_eq hq (by decide))]
      decide
  · rw [resolve_of_begun hf]
    exact fun _ => hf

/-- A bean that was fresh is left being resolved if and only if its resolution fails. -/
theorem resolve_leaves_resolving {b : Nat} {bean : Bean} {p : Progress}
    (hbean : plan.beans[b]? = some bean) (hb : p.registry.status b = .fresh) (n : Nat) :
    After (plan.resolve (n + 1) b) p fun r q =>
      q.registry.status b = .resolving ↔ ∃ e, r = .error e := by
  have hlt : b < p.registry.marks.length := Registry.lt_length_of_status_eq hb (by decide)
  have hcheck : After (plan.check n bean) (p.setStatus b .resolving) fun _ q =>
      q.registry.status b = .resolving :=
    (check_keeps_resolving b n bean).after (Registry.status_setStatus_self _ b _ hlt)
  refine resolve_of_fresh hbean hb hcheck (fun q hq => hq) (fun e q hq => iff_of_true hq ⟨e, rfl⟩)
    (fun e q hq _ => iff_of_true hq ⟨e, rfl⟩) (fun q hq => iff_of_false ?_ nofun)
    fun exports q hq _ => iff_of_false ?_ nofun
  · rw [status_discard_self b q plan (Registry.lt_length_of_status_eq hq (by decide))]
    decide
  · rw [status_settle_self b bean exports q (Registry.lt_length_of_status_eq hq (by decide))]
    decide

/-- If all beans are resolved, none is fresh any more. -/
theorem resolveAll_calm {p : Progress} (hlen : p.registry.marks.length = plan.beans.length) :
    After plan.resolveAll p fun r q => r = .ok () → ∀ b, q.registry.status b ≠ .fresh := by
  have hall : ∀ (bs : List Nat) (p : Progress), (∀ b ∈ bs, b < plan.beans.length) →
      After (bs.forM plan.resolveBean) p fun r q =>
        r = .ok () → ∀ b ∈ bs, q.registry.status b ≠ .fresh := by
    intro bs
    induction bs with
    | nil => exact fun p _ _ b hb => absurd hb List.not_mem_nil
    | cons b bs ih =>
      intro p hbs
      show After (plan.resolveBean b >>= fun _ => bs.forM plan.resolveBean) p _
      have hlt : b < plan.beans.length := hbs b List.mem_cons_self
      obtain ⟨n, hn⟩ : ∃ n, plan.beans.length = n + 1 := ⟨plan.beans.length - 1, by omega⟩
      rw [after_bind]
      have hb := resolve_begins (List.getElem?_eq_getElem hlt) n p
      rw [← hn] at hb
      refine hb.mono fun r q hq => ?_
      cases r with
      | error e => exact fun h => by cases h
      | ok _ =>
        have hbegun := hq rfl
        rw [continues_ok]
        refine ((ih q fun c hc => hbs c (List.mem_cons_of_mem _ hc)).and
          (Carries.forM (fun c _ => resolve_keeps (persists_begun b) _ c) q hbegun)).mono
            fun r t ⟨ht, hbt⟩ hr c hc => ?_
        rw [split_same] at hbt
        rcases List.mem_cons.mp hc with rfl | hc
        · exact hbt
        · exact ht hr c hc
  have hlength : Keeps (fun q => q.registry.marks.length = plan.beans.length) plan.resolveAll :=
    resolveAll_keeps (persists_length _)
  refine ((hall _ p fun b hb => List.mem_range.mp hb).and (hlength p hlen)).mono
    fun r q ⟨hq, hl⟩ hr b => ?_
  rw [split_same] at hl
  by_cases hb : b < plan.beans.length
  · exact hq hr b (List.mem_range.mpr hb)
  · intro hf
    exact hb (hl ▸ Registry.lt_length_of_status_eq hf (by decide))

end Plan
end Inversion
